import Qemacs.Undo.History

/-!
# A sequence of undos, and of redos after them

From a journal of `m` entries that edits have built up, `i` undos lead to a state that can be
written down: the text is the one before entry `m - i`, the journal is the old one with the `i`
entries the undos logged behind it, and the cursor is before entry `m - i`. Only the limit
complicates it. The entries of the undos count too, so when `m + i` passes the limit each undo
drops the oldest entry, and the cursor, which counts from the front, goes back by two. The undos
therefore come to an end after half the limit, whatever is left to undo.

The redos take the entries of the undos off again, last first.
-/

namespace Qemacs

open Lib

/-- A journal that edits have built up, with no undo sequence under way. -/
structure Journal.Rest (j : Journal) : Prop where
  linked : j.Linked View.texts
  edited : ∀ e ∈ j.entries, e.byUndo = false
  cur : j.cur = none
  count : j.nbLogs = j.entries.length
  limit : j.entries.length < nbLogsMax
  int : (j.text.length : Int) ≤ intMax

variable {j : Journal}

/-- Every entry takes the text after it back to the text before it. -/
theorem Journal.Rest.entry (hj : j.Rest) {p : Nat} {e : Entry} (he : j.entries[p]? = some e) :
    e.back.Fits (textAt j.entries j.text (p + 1)).length ∧
      e.back.apply (textAt j.entries j.text (p + 1)) = textAt j.entries j.text p := by
  have hback := hj.linked.chain p e he
  have htakes : e.TakesBack := by
    intro hu
    rw [hj.edited e (List.mem_of_getElem? he)] at hu
    exact absurd hu (by simp)
  refine ⟨hback.fits, ?_⟩
  rw [textAt_of_getElem? he]
  exact hback.same htakes

/-- How many entries `i` undos drop from the front of a journal of `m`. -/
@[irreducible] def dropped (m i : Nat) : Nat := m + i + 1 - nbLogsMax

/-- How many entries of a journal of `m` can be undone. -/
@[irreducible] def undoable (m : Nat) : Nat := min m (nbLogsMax / 2)

variable {m : Nat}

theorem dropped_zero (hm : m < nbLogsMax) : dropped m 0 = 0 := by
  unfold dropped
  omega

variable {i : Nat}

theorem dropped_lt (hm : m < nbLogsMax) (hi : i < undoable m) : i + dropped m i < m := by
  have hN := nbLogsMax_eq
  unfold undoable at hi
  unfold dropped
  omega

theorem dropped_undoable (hm : m < nbLogsMax) : m ≤ undoable m + dropped m (undoable m) := by
  have hN := nbLogsMax_eq
  unfold dropped undoable
  omega

theorem min_count {n l : Nat} (hl : 1 < l) (h : n = min (m + i) (l - 1)) :
    (n + 1 ≥ l → n - 1 + 1 = min (m + (i + 1)) (l - 1)) ∧
      (¬ n + 1 ≥ l → n + 1 = min (m + (i + 1)) (l - 1)) := by
  omega

/-- What the undo number `q` (from zero) logs. -/
def Journal.undoBack (j : Journal) (q : Nat) : Option Change :=
  j.entries[j.entries.length - 1 - q]?.map fun e =>
    e.back.undoInverse (textAt j.entries j.text (j.entries.length - q))

/-- `k` is `j` after `i` undos. -/
structure Undone (j : Journal) (i : Nat) (k : Journal) : Prop where
  text : k.text = textAt j.entries j.text (j.entries.length - i)
  cur : k.start.cur = if i = 0 then none
    else some (j.entries.length - i - dropped j.entries.length i)
  nbLogs : k.nbLogs = min (j.entries.length + i) (nbLogsMax - 1)
  entries : ∃ us, k.entries = j.entries.drop (dropped j.entries.length i) ++ us ∧
    us.map (fun e => some e.back) = (List.range i).map j.undoBack

theorem Undone.zero (h : j.Rest) : Undone j 0 j := by
  have hlim := h.limit
  refine ⟨(textAt_length j.entries j.text).symm, ?_, ?_, [], ?_, rfl⟩
  · rw [Journal.start_of_noLog h.cur, h.cur]
    rfl
  · rw [h.count]
    omega
  · rw [dropped_zero hlim, List.drop_zero, List.append_nil]

variable {k : Journal}

theorem Undone.pos (h : Undone j i k) (hj : j.Rest) :
    k.start.pos = j.entries.length - i - dropped j.entries.length i := by
  rw [Journal.pos, h.cur]
  by_cases hi : i = 0
  · obtain ⟨us, hes, hus⟩ := h.entries
    rw [hi, List.range_zero, List.map_nil, List.map_eq_nil_iff] at hus
    rw [hi, dropped_zero hj.limit, hus, List.drop_zero, List.append_nil] at hes
    rw [if_pos hi, Option.getD_none, hi, dropped_zero hj.limit]
    exact congrArg List.length hes
  · rw [if_neg hi, Option.getD_some]

/-- The entry the next undo plays: the last of the old ones not yet undone, on the text after
it. -/
theorem Undone.undoEntry (h : Undone j i k) (hj : j.Rest) (hi : i < undoable j.entries.length) :
    ∃ e, k.undoEntry = some e ∧ j.entries[j.entries.length - 1 - i]? = some e ∧
      e.back.Fits k.text.length ∧
      e.back.apply k.text = textAt j.entries j.text (j.entries.length - (i + 1)) := by
  have hlt := dropped_lt hj.limit hi
  have hpos := h.pos hj
  obtain ⟨us, hes, -⟩ := h.entries
  have hidx : j.entries.length - 1 - i < j.entries.length := by omega
  obtain ⟨e, he⟩ : ∃ e, j.entries[j.entries.length - 1 - i]? = some e :=
    ⟨_, List.getElem?_eq_getElem hidx⟩
  obtain ⟨hfits, happly⟩ := hj.entry he
  rw [show j.entries.length - 1 - i + 1 = j.entries.length - i by omega, ← h.text] at hfits happly
  refine ⟨e, ?_, he, hfits, ?_⟩
  · rw [Journal.undoEntry, if_neg (by omega), hpos, hes,
      List.getElem?_append_left (by rw [List.length_drop]; omega), List.getElem?_drop, ← he]
    congr 1
    omega
  · rw [happly, show j.entries.length - (i + 1) = j.entries.length - 1 - i by omega]

/-- **One more undo.** -/
theorem Undone.undo (h : Undone j i k) (hj : j.Rest) (hi : i < undoable j.entries.length)
    : Undone j (i + 1) k.undo := by
  have hcount := min_count (show 1 < nbLogsMax by rw [nbLogsMax_eq]; omega) h.nbLogs
  have hlt := dropped_lt hj.limit hi
  have hpos := h.pos hj
  have hnb := h.nbLogs
  obtain ⟨e, hue, he, -, hnext⟩ := h.undoEntry hj hi
  obtain ⟨us, hes, hus⟩ := h.entries
  have hback : j.undoBack i = some (e.back.undoInverse k.text) := by
    rw [Journal.undoBack, he, h.text]
    rfl
  have hus' : ∀ m b f, (us ++ [Entry.mk (e.back.undoInverse k.text) m k.text b f]).map
      (fun e => some e.back) = (List.range (i + 1)).map j.undoBack := by
    intro m b f
    rw [List.map_append, hus, List.range_succ, List.map_append]
    simp [hback]
  unfold Journal.undo
  rw [hue]
  by_cases hfull : k.nbLogs + 1 ≥ nbLogsMax
  · -- the oldest entry goes, and the cursor with it
    have hdr : dropped j.entries.length (i + 1) = dropped j.entries.length i + 1 := by
      unfold dropped; omega
    have hev : { k.start with cur := some (k.start.pos - 1) }.evict
        = { k.start with
            entries := k.entries.tail
            cur := some (k.start.pos - 1 - 1)
            nbLogs := k.nbLogs - 1 } := by
      unfold Journal.evict
      exact if_pos hfull
    have htail : k.entries.tail = j.entries.drop (dropped j.entries.length i + 1) ++ us := by
      rw [hes, List.tail_append_of_ne_nil (by rw [ne_eq, List.drop_eq_nil_iff]; omega), List.tail_drop]
    simp only [Journal.play, hev]
    refine ⟨hnext, ?_, ?_, _, ?_, hus' k.modified true true⟩
    · show some (k.start.pos - 1 - 1) = _
      rw [if_neg (Nat.succ_ne_zero i), hpos, hdr]
      congr 1
      omega
    · exact hcount.1 hfull
    · show k.entries.tail ++ _ = _
      rw [htail, hdr, List.append_assoc]
      rfl
  · have hdr : dropped j.entries.length (i + 1) = dropped j.entries.length i := by
      unfold dropped; omega
    have hev : { k.start with cur := some (k.start.pos - 1) }.evict
        = { k.start with cur := some (k.start.pos - 1) } := by
      unfold Journal.evict
      exact if_neg hfull
    simp only [Journal.play, hev]
    refine ⟨hnext, ?_, ?_, _, ?_, hus' k.modified true true⟩
    · show some (k.start.pos - 1) = _
      rw [if_neg (Nat.succ_ne_zero i), hpos, hdr]
      congr 1
      omega
    · exact hcount.2 hfull
    · show k.entries ++ _ = _
      rw [hes, hdr, List.append_assoc]
      rfl

theorem Undone.exhausted (h : Undone j (undoable j.entries.length) k) (hj : j.Rest)
    : k.undoEntry = none ∧ Undone j (undoable j.entries.length) k.undo := by
  have hle := dropped_undoable hj.limit
  have hpos := h.pos hj
  have hnone : k.undoEntry = none := by
    rw [Journal.undoEntry, if_pos (by omega)]
  refine ⟨hnone, ?_⟩
  rw [Journal.undo, hnone]
  obtain ⟨htext, hcur, hnb, hes⟩ := h
  refine ⟨htext, ?_, hnb, hes⟩
  rw [← hcur]
  simp only [Journal.start, CmdFunc.isUndoRedo, if_true]

theorem Undone.undos (hj : j.Rest) : ∀ i : Nat,
    Undone j (min i (undoable j.entries.length)) ((List.replicate i Command.undo).foldl Journal.exec j) := by
  intro i
  induction i with
  | zero =>
    rw [Nat.zero_min]
    exact Undone.zero hj
  | succ i ih =>
    rw [List.replicate_succ', List.foldl_append]
    rcases Nat.lt_or_ge i (undoable j.entries.length) with hi | hi
    · rw [Nat.min_eq_left (by omega)] at ih
      rw [Nat.min_eq_left (by omega)]
      exact ih.undo hj hi
    · rw [Nat.min_eq_right (by omega)] at ih
      rw [Nat.min_eq_right (by omega)]
      exact (ih.exhausted hj).2

theorem textAt_length_le {es : List Entry} {text : List UInt8} {n : Int}
    (hes : ∀ e ∈ es, (e.before.length : Int) ≤ n) (ht : (text.length : Int) ≤ n) (i : Nat) :
    ((textAt es text i).length : Int) ≤ n := by
  unfold textAt
  cases he : es[i]? with
  | none => exact ht
  | some e => exact hes e (List.mem_of_getElem? he)

theorem Undone.playable (h : Undone j i k) (hj : j.Rest) (hi : i ≤ undoable j.entries.length) : k.Playable .undo := by
  intro e hue
  rcases Nat.lt_or_ge i (undoable j.entries.length) with hlt | hge
  · obtain ⟨e', hue', -, hfits, hnext⟩ := h.undoEntry hj hlt
    have hee : e' = e := by
      rw [hue] at hue'
      exact (Option.some.inj hue').symm
    rw [← hee]
    refine ⟨hfits, ?_⟩
    rw [hnext]
    exact textAt_length_le hj.linked.int hj.int _
  · have hieq : i = undoable j.entries.length := by omega
    subst hieq
    rw [(h.exhausted hj).1] at hue
    exact absurd hue (by simp)

theorem Journal.Rest.meets_undos (hj : j.Rest) (i : Nat) :
    Meets Journal.Playable Journal.exec j (List.replicate i Command.undo) := by
  induction i with
  | zero => exact True.intro
  | succ i ih =>
    rw [List.replicate_succ', Meets.append]
    exact ⟨ih, (Undone.undos hj i).playable hj (Nat.min_le_right _ _), True.intro⟩

/-! ## Redoing -/

/-- The texts the redos go through after `i` undos: each plays what the undo logged. -/
def Journal.redoText (j : Journal) (i : Nat) : Nat → List UInt8
  | 0 => textAt j.entries j.text (j.entries.length - i)
  | r + 1 =>
      match j.undoBack (i - 1 - r) with
      | some c => c.apply (j.redoText i r)
      | none => j.redoText i r

/-- `k` is `j` after `i` undos and `r` redos. -/
structure Redone (j : Journal) (i r : Nat) (k : Journal) : Prop where
  text : k.text = j.redoText i r
  cur : k.start.cur = if r = i then none
    else some (j.entries.length - i - dropped j.entries.length i + r)
  entries : ∃ us, k.entries = j.entries.drop (dropped j.entries.length i) ++ us ∧
    us.map (fun e => some e.back) = (List.range (i - r)).map j.undoBack

theorem Undone.redone (h : Undone j i k) : Redone j i 0 k := by
  refine ⟨h.text, ?_, h.entries⟩
  rw [h.cur]
  by_cases hi : i = 0
  · rw [if_pos hi, if_pos hi.symm]
  · rw [if_neg hi, if_neg (Ne.symm hi), Nat.add_zero]

/-- What the undo of an entry logs: its inverse, on the text after it, and it fits the text
before it. -/
theorem Journal.Rest.undoBack (hj : j.Rest) {p : Nat} (hp : p < j.entries.length) :
    ∃ e, j.entries[p]? = some e ∧
      j.undoBack (j.entries.length - 1 - p) = some (e.back.undoInverse (textAt j.entries j.text (p + 1))) ∧
      (e.back.undoInverse (textAt j.entries j.text (p + 1))).Fits (textAt j.entries j.text p).length := by
  obtain ⟨e, he⟩ : ∃ e, j.entries[p]? = some e := ⟨_, List.getElem?_eq_getElem hp⟩
  obtain ⟨hfits, happly⟩ := hj.entry he
  refine ⟨e, he, ?_, ?_⟩
  · rw [Journal.undoBack, show j.entries.length - 1 - (j.entries.length - 1 - p) = p by omega,
      show j.entries.length - (j.entries.length - 1 - p) = p + 1 by omega, he]
    rfl
  · rw [← happly]
    exact Change.undoInverse_fits hfits

variable {r : Nat}

theorem Journal.redoText_succ {p : Nat} {c : Change} (hp : p + i = j.entries.length + r) (hr : r < i)
    (hc : j.undoBack (j.entries.length - 1 - p) = some c) :
    j.redoText i (r + 1) = c.apply (j.redoText i r) := by
  rw [Journal.redoText, show i - 1 - r = j.entries.length - 1 - p by omega, hc]

theorem Journal.Rest.length_redoText (hj : j.Rest) (hi : i ≤ j.entries.length) (hr : r ≤ i) :
    (j.redoText i r).length = (textAt j.entries j.text (j.entries.length - i + r)).length := by
  induction r with
  | zero => rfl
  | succ r ih =>
    have hlen := ih (by omega)
    obtain ⟨e, he, hback, hfits⟩ := hj.undoBack (show j.entries.length - i + r < j.entries.length by omega)
    obtain ⟨hfits', happly⟩ := hj.entry he
    rw [Journal.redoText_succ (by omega) (by omega) hback,
      Change.length_apply_congr hlen (by rw [hlen]; exact hfits), ← happly]
    exact View.lengths.sound_undo (m := true) (f := true) hfits' True.intro

theorem undoable_le (m : Nat) : undoable m ≤ m := by
  unfold undoable
  exact Nat.min_le_left _ _

theorem dropped_le (hm : m < nbLogsMax) (hi : i ≤ undoable m) : i + dropped m i ≤ m + 1 ∧ dropped m i ≤ m := by
  have hN := nbLogsMax_eq
  unfold undoable at hi
  unfold dropped
  omega

theorem Redone.redoEntry (h : Redone j i r k) (hr : r < i) :
    ∃ us e, k.entries = j.entries.drop (dropped j.entries.length i) ++ us ++ [e] ∧
      us.map (fun e => some e.back) = (List.range (i - (r + 1))).map j.undoBack ∧
      some e.back = j.undoBack (i - 1 - r) ∧
      k.redoEntry = some (j.entries.length - i - dropped j.entries.length i + r, e) := by
  obtain ⟨us, hes, hus⟩ := h.entries
  rw [show i - r = i - (r + 1) + 1 by omega, List.range_succ, List.map_append] at hus
  obtain ⟨us', vs, rfl, hus', hvs⟩ := List.map_eq_append_iff.mp hus
  obtain ⟨e, rfl, he⟩ := List.map_eq_singleton_iff.mp hvs
  rw [← List.append_assoc] at hes
  refine ⟨us', e, hes, hus', ?_, ?_⟩
  · rw [he]
    congr 1
    omega
  · rw [Journal.redoEntry, h.cur, if_neg (by omega), hes, List.getLast?_concat]
    rfl

theorem Redone.length_entries {es us : List Entry} {e : Entry}
    (hes : es = j.entries.drop (dropped j.entries.length i) ++ us ++ [e])
    (hus : us.map (fun e => some e.back) = (List.range (i - (r + 1))).map j.undoBack) :
    es.length = j.entries.length - dropped j.entries.length i + (i - (r + 1)) + 1 := by
  have hlen : us.length = i - (r + 1) := by simpa using congrArg List.length hus
  rw [hes]
  simp only [List.length_append, List.length_drop, List.length_singleton, hlen]

/-- **One more redo.** -/
theorem Redone.redo (h : Redone j i r k) (hj : j.Rest) (hi : i ≤ undoable j.entries.length) (hr : r < i)
    : Redone j i (r + 1) k.redo := by
  have hle := dropped_le hj.limit hi
  obtain ⟨us, e, hes, hus, he, hre⟩ := h.redoEntry hr
  have hlen := Redone.length_entries hes hus
  rw [Journal.redo, hre]
  refine ⟨?_, ?_, us, ?_, hus⟩
  · show e.back.apply k.text = j.redoText i (r + 1)
    rw [Journal.redoText, ← he, h.text]
  · simp only [Journal.start, CmdFunc.isUndoRedo, if_true]
    -- the cursor has met the end of the journal when everything is redone
    by_cases hlast : r + 1 = i
    · rw [if_pos (by omega), if_pos hlast]
    · rw [if_neg (by omega), if_neg hlast, Nat.add_assoc]
  · show k.entries.dropLast = _
    rw [hes, List.dropLast_concat]

theorem Redone.done {j k : Journal} {i : Nat} (h : Redone j i i k) :
    k.redoEntry = none ∧ Redone j i i k.redo := by
  have hcur : k.start.cur = none := by rw [h.cur, if_pos rfl]
  have hnone : k.redoEntry = none := by rw [Journal.redoEntry, hcur]; rfl
  refine ⟨hnone, ?_⟩
  rw [Journal.redo, hnone]
  refine ⟨h.text, ?_, h.entries⟩
  rw [← h.cur]
  simp only [Journal.start, CmdFunc.isUndoRedo, if_true]

theorem Redone.redos (h : Redone j i 0 k) (hj : j.Rest) (hi : i ≤ undoable j.entries.length) : ∀ r : Nat,
    Redone j i (min r i) ((List.replicate r Command.redo).foldl Journal.exec k) := by
  intro r
  induction r with
  | zero =>
    rw [Nat.zero_min]
    exact h
  | succ r ih =>
    rw [List.replicate_succ', List.foldl_append]
    rcases Nat.lt_or_ge r i with hr | hr
    · rw [Nat.min_eq_left (by omega)] at ih
      rw [Nat.min_eq_left (by omega)]
      exact ih.redo hj hi hr
    · rw [Nat.min_eq_right (by omega)] at ih
      rw [Nat.min_eq_right (by omega)]
      exact ih.done.2

theorem Redone.playable (h : Redone j i r k) (hj : j.Rest) (hi : i ≤ undoable j.entries.length) (hr : r ≤ i)
    : k.Playable .redo := by
  intro c e hce
  rcases Nat.lt_or_ge r i with hlt | hge
  · have hle := dropped_le hj.limit hi
    have hi' := Nat.le_trans hi (undoable_le _)
    obtain ⟨us, e', hes, hus, he, hre⟩ := h.redoEntry hlt
    have hlen := Redone.length_entries hes hus
    rw [hre, Option.some.injEq, Prod.mk.injEq] at hce
    obtain ⟨rfl, rfl⟩ := hce
    obtain ⟨e₀, -, hback, hfits⟩ := hj.undoBack (show j.entries.length - i + r < j.entries.length by omega)
    rw [show i - 1 - r = j.entries.length - 1 - (j.entries.length - i + r) by omega, hback,
      Option.some.injEq] at he
    have htext := hj.length_redoText hi' hr
    have hnext := hj.length_redoText hi' (show r + 1 ≤ i from hlt)
    rw [Journal.redoText_succ (by omega) hlt hback, ← he, ← h.text] at hnext
    refine ⟨by omega, ?_, ?_⟩
    · rw [he, h.text, htext]
      exact hfits
    · rw [hnext]
      exact textAt_length_le hj.linked.int hj.int _
  · have hreq : r = i := by omega
    subst hreq
    rw [h.done.1] at hce
    exact absurd hce (by simp)

theorem Redone.meets_redos (h : Redone j i 0 k) (hj : j.Rest) (hi : i ≤ undoable j.entries.length) (r : Nat) :
    Meets Journal.Playable Journal.exec k (List.replicate r Command.redo) := by
  induction r with
  | zero => exact True.intro
  | succ r ih =>
    rw [List.replicate_succ', Meets.append]
    exact ⟨ih, (h.redos hj hi r).playable hj hi (Nat.min_le_right _ _), True.intro⟩

end Qemacs
