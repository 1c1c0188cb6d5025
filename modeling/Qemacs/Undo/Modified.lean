import Qemacs.Undo.Integrity

/-!
# When the `modified` flag can be believed

`modified` is set by every logged edit and cleared by a save. An undo and a redo set it to what
it was when the record they play was opened. That is right as long as the file is still the one
the record knew: a save in between makes every `was_modified` of the log speak about a file that
is no longer there, and `eb_save_buffer` leaves the log as it is.

So the flag is a statement about entries: an entry opened with the flag clear was opened on the
text of the file, *if it was opened since the last save*. `Journal.Clean` says this of every
entry, and that playing entries does lead to the texts they were opened on. What breaks either
is what `Journal.FlagOk` forbids.
-/

namespace Qemacs

open Lib

/-- What every state of a run has in which the flag can be believed. -/
structure Journal.Clean (j : Journal) : Prop where
  linked : j.Linked View.texts
  walk : ∀ c, j.start.cur = some c → ∃ u, 0 < u ∧ Mirror View.texts j.entries j.text c u
  flag : j.modified = false → j.text = j.file
  fresh : ∀ e ∈ j.entries, e.fresh = true → e.wasModified = false → e.before = j.file

/-- The condition on a step, from the state before it:

* an edit keeps the text inside an `int` and, when the count is at its limit, finds a record to
  drop;
* a record that is played takes back what it was opened for, which only the overwriting that an
  undo logs does not do;
* an undo plays a record of the time since the last save, or one opened with the flag set;
* an undo that has to drop the oldest record does not play that one. -/
def Journal.FlagOk (j : Journal) : Command → Prop
  | .edit e => ((e.apply j.text).length : Int) ≤ intMax ∧
      (j.nbLogs + 1 ≥ nbLogsMax → j.entries ≠ [])
  | .undo => ∀ e ∈ j.undoEntry, e.TakesBack ∧ (e.fresh = true ∨ e.wasModified = true) ∧
      (j.nbLogs + 1 ≥ nbLogsMax → j.start.pos ≠ 1)
  | .redo => ∀ ie ∈ j.redoEntry, ie.2.TakesBack
  | .save _ => True

instance (j : Journal) : ∀ cmd, Decidable (j.FlagOk cmd)
  | .edit e => inferInstanceAs (Decidable (((e.apply j.text).length : Int) ≤ intMax ∧
      (j.nbLogs + 1 ≥ nbLogsMax → j.entries ≠ [])))
  | .undo => inferInstanceAs (Decidable (∀ e ∈ j.undoEntry, e.TakesBack ∧
      (e.fresh = true ∨ e.wasModified = true) ∧ (j.nbLogs + 1 ≥ nbLogsMax → j.start.pos ≠ 1)))
  | .redo => inferInstanceAs (Decidable (∀ ie ∈ j.redoEntry, ie.2.TakesBack))
  | .save _ => inferInstanceAs (Decidable True)

/-! ## Edits -/

variable {j : Journal}

/-- The entry of a change, when the flag and the entries before it are right. -/
theorem Journal.change_fresh (hflag : j.modified = false → j.text = j.file)
    (hfresh : ∀ e ∈ j.entries, e.fresh = true → e.wasModified = false → e.before = j.file) (c : Change) :
    ∀ e ∈ (j.change c).entries, e.fresh = true → e.wasModified = false → e.before = j.file := by
  have hev : ∀ e ∈ j.evict.entries, e.fresh = true → e.wasModified = false → e.before = j.file := by
    intro e he
    refine hfresh e ?_
    unfold Journal.evict at he
    split at he
    · exact List.mem_of_mem_tail he
    · exact he
  rw [Journal.change_eq]
  simp only [Journal.logged]
  cases hes : j.evict.coalesced c with
  | none =>
    intro e he
    rcases List.mem_append.mp he with he | he
    · exact hev e he
    · rw [List.mem_singleton.mp he]
      intro _ hwm
      exact hflag hwm
  | some es =>
    -- a coalesced entry keeps the text and the flag of the entry it was
    obtain ⟨offset, data, pre, x, x', -, -, hpre, hext, rfl⟩ := History.coalesced_eq_some hes
    obtain ⟨o, n, -, -, rfl⟩ := Entry.of_extend hext
    intro e he
    rcases List.mem_append.mp he with he | he
    · exact hev e (by rw [hpre]; exact List.mem_append_left _ he)
    · rw [List.mem_singleton.mp he]
      exact hev x (by rw [hpre]; simp)

theorem Journal.foldl_change_fresh : ∀ (cs : List Change) {j : Journal},
    (j.modified = false → j.text = j.file) →
    (∀ e ∈ j.entries, e.fresh = true → e.wasModified = false → e.before = j.file) →
    ((cs.foldl Journal.change j).modified = false → (cs.foldl Journal.change j).text = j.file) ∧
    ∀ e ∈ (cs.foldl Journal.change j).entries, e.fresh = true → e.wasModified = false → e.before = j.file := by
  intro cs
  induction cs with
  | nil => intro j hflag hfresh; exact ⟨hflag, hfresh⟩
  | cons c cs ih =>
    intro j hflag hfresh
    have hmod : (j.change c).modified = true := by rw [Journal.change_eq]
    have hfile : (j.change c).file = j.file := j.change_file c
    have hnext := ih (j := j.change c) (fun h => absurd h (by rw [hmod]; simp))
      (by rw [hfile]; exact Journal.change_fresh hflag hfresh c)
    rw [hfile] at hnext
    exact hnext

theorem Journal.Clean.edit {j : Journal} (h : j.Clean) (hj : (j.text.length : Int) ≤ intMax)
    {e : Edit} (he : Meets Journal.Admits Journal.change j (e.changes j.text.length)) :
    (j.edit e).Clean := by
  obtain ⟨hchain, hint⟩ := Journal.Linked.changes _ h.linked hj he
  obtain ⟨hflag, hfresh⟩ := Journal.foldl_change_fresh (e.changes j.text.length) h.flag h.fresh
  have hfile := Journal.foldl_change_file j (e.changes j.text.length)
  refine ⟨⟨hchain, hint⟩, ?_, ?_, ?_⟩
  · intro c hc
    exact absurd hc (by simp [Journal.start, Journal.edit, CmdFunc.isUndoRedo])
  · exact fun hm => (hflag hm).trans hfile.symm
  · exact fun x hx hf hwm => (hfresh x hx hf hwm).trans hfile.symm

theorem Journal.Clean.save (h : j.Clean) : j.save.Clean := by
  refine ⟨h.linked.save, ?_, fun _ => rfl, ?_⟩
  · intro c hc
    exact absurd hc (by simp [Journal.start, Journal.save, CmdFunc.isUndoRedo])
  · intro e he hf
    obtain ⟨e', -, rfl⟩ := List.mem_map.mp he
    exact absurd hf (by simp)

/-! ## Undo and redo -/

theorem Journal.Clean.restart (h : j.Clean) {cmd : CmdFunc} (hcmd : cmd.isUndoRedo = true)
    : Journal.Clean { j.start with lastCmd := cmd } := by
  obtain ⟨⟨hchain, hint⟩, hwalk, hflag, hfresh⟩ := h
  refine ⟨⟨hchain, hint⟩, ?_, hflag, hfresh⟩
  intro c hc
  refine hwalk c ?_
  simpa only [Journal.start, hcmd, if_true] using hc

theorem Journal.Clean.mirror (h : j.Clean) : ∃ u, Mirror View.texts j.entries j.text j.start.pos u := by
  unfold Journal.pos
  cases hc : j.start.cur with
  | none => exact ⟨0, Mirror.start j.entries j.text⟩
  | some c =>
    obtain ⟨u, -, hm⟩ := h.walk c hc
    exact ⟨u, hm⟩

theorem Journal.play_frame (j : Journal) (i : Nat) (e : Entry) :
    (j.play i e).modified = e.wasModified ∧ (j.play i e).text = e.back.apply j.text ∧
      (j.play i e).file = j.file ∧
      ∀ x ∈ (j.play i e).entries, x ∈ j.entries ∨
        x = ⟨e.back.undoInverse j.text, j.modified, j.text, true, true⟩ := by
  unfold Journal.play Journal.evict
  split
  · refine ⟨rfl, rfl, rfl, fun x hx => ?_⟩
    rcases List.mem_append.mp hx with hx | hx
    · exact .inl (List.mem_of_mem_tail hx)
    · exact .inr (List.mem_singleton.mp hx)
  · refine ⟨rfl, rfl, rfl, fun x hx => ?_⟩
    rcases List.mem_append.mp hx with hx | hx
    · exact .inl hx
    · exact .inr (List.mem_singleton.mp hx)

theorem Journal.Clean.undo (h : j.Clean) (hj : (j.text.length : Int) ≤ intMax) (hok : j.FlagOk .undo)
    : j.undo.Clean := by
  unfold Journal.undo
  cases hue : j.undoEntry with
  | none => exact h.restart rfl
  | some e =>
    obtain ⟨htakes, hplay, hroom⟩ := hok e hue
    obtain ⟨es, fs, hes, hpos⟩ := Journal.undoEntry_eq_some hue
    obtain ⟨u, hm⟩ := h.mirror
    obtain ⟨hback, hmem⟩ := h.linked.undoEntry hue hm
    have hbefore : e.back.apply j.text = e.before := hback.same htakes
    have hstart : Journal.Linked View.texts j.start := ⟨h.linked.chain, h.linked.int⟩
    have hget : j.start.entries[es.length]? = some e := by
      show j.entries[es.length]? = some e
      rw [hes]; simp
    simp only [hpos, Nat.add_sub_cancel]
    rw [hpos] at hm hroom
    obtain ⟨hchain, hint⟩ := hstart.play hj hback.fits (i := es.length)
    obtain ⟨hmod, htext, hfile, hentries⟩ := Journal.play_frame j.start es.length e
    refine ⟨⟨hchain, hint⟩, ?_, ?_, ?_⟩
    · intro c hc
      have hc' : (j.start.play es.length e).cur = some c := by
        simpa only [Journal.start, CmdFunc.isUndoRedo, if_true] using hc
      rcases hstart.mirror_play hm hget htakes hc' with ⟨hfull, hi, -⟩ | hm'
      · exact absurd (by omega) (hroom hfull)
      · exact ⟨u + 1, Nat.succ_pos u, hm'⟩
    · intro hm'
      have hwm : e.wasModified = false := hmod.symm.trans hm'
      have hfresh : e.fresh = true := hplay.resolve_right (by rw [hwm]; simp)
      show (j.start.play es.length e).text = (j.start.play es.length e).file
      rw [htext, hfile]
      exact hbefore.trans (h.fresh e hmem hfresh hwm)
    · intro x hx hf hwm
      show x.before = (j.start.play es.length e).file
      rw [hfile]
      rcases hentries x hx with hx | rfl
      · exact h.fresh x hx hf hwm
      · exact h.flag hwm

theorem Journal.Clean.redoEntry (h : j.Clean) {i : Nat} {e : Entry} (hre : j.redoEntry = some (i, e))
    : i < j.entries.length ∧ e.Back View.texts j.text ∧ e ∈ j.entries ∧ e.fresh = true := by
  obtain ⟨hcur, es, hes⟩ := Journal.redoEntry_eq_some hre
  obtain ⟨u, hu, hm⟩ := h.walk i hcur
  have hlen := hm.length
  have hch := h.linked.chain
  rw [hes] at hch
  refine ⟨by omega, hch.dropLast.2, by rw [hes]; simp, ?_⟩
  refine hm.fresh 0 e hu ?_
  rw [hes]
  simp

theorem Journal.Clean.redo (h : j.Clean) (hok : j.FlagOk .redo) : j.redo.Clean := by
  unfold Journal.redo
  cases hre : j.redoEntry with
  | none => exact h.restart rfl
  | some ie =>
    obtain ⟨i, e⟩ := ie
    obtain ⟨-, hback, hmem, hefresh⟩ := h.redoEntry hre
    obtain ⟨hcur, es, hes⟩ := Journal.redoEntry_eq_some hre
    obtain ⟨u, hu, hm⟩ := h.walk i hcur
    have hbefore : e.back.apply j.text = e.before := hback.same (hok (i, e) hre)
    have hlen := hm.length
    have hch := h.linked.chain
    obtain ⟨u, rfl⟩ : ∃ v, u = v + 1 := ⟨u - 1, by omega⟩
    have hsub : ∀ x ∈ es, x ∈ j.entries := fun x hx => by rw [hes]; exact List.mem_append_left _ hx
    have hdl : j.entries.dropLast = es := by rw [hes, List.dropLast_concat]
    have hlen' : j.entries.length - 1 = es.length := by rw [hes]; simp
    rw [hes] at hch hm
    have hm' := hm.redo
    simp only [hdl, hlen', hbefore]
    refine ⟨⟨hch.dropLast.1, fun x hx => h.linked.int x (hsub x hx)⟩, ?_, ?_, ?_⟩
    · intro c hc
      simp only [Journal.start, CmdFunc.isUndoRedo, if_true] at hc
      split at hc
      · exact absurd hc (by simp)
      · simp only [Option.some.injEq] at hc
        subst hc
        have := hm'.length
        exact ⟨u, by omega, hm'⟩
    · exact fun hwm => h.fresh e hmem hefresh hwm
    · exact fun x hx hf hwm => h.fresh x (hsub x hx) hf hwm

/-! ## The run -/

section Run

variable {σ : Type}

theorem Journal.Clean.playable_undo (h : j.Clean) (hok : j.FlagOk .undo) : j.Playable .undo := by
  intro e hue
  obtain ⟨u, hm⟩ := h.mirror
  obtain ⟨hback, hmem⟩ := h.linked.undoEntry hue hm
  refine ⟨hback.fits, ?_⟩
  rw [show e.back.apply j.text = e.before from hback.same (hok e hue).1]
  exact h.linked.int e hmem

theorem Journal.Clean.playable_redo (h : j.Clean) (hok : j.FlagOk .redo) : j.Playable .redo := by
  intro i e hre
  obtain ⟨hi, hback, hmem, -⟩ := h.redoEntry hre
  refine ⟨hi, hback.fits, ?_⟩
  rw [show e.back.apply j.text = e.before from hback.same (hok (i, e) hre)]
  exact h.linked.int e hmem

/-- **One step of a run in which the flag can be believed.** -/
theorem Sim.step_clean {Q : PageInv} {s : EditState σ} (h : Sim Q s j) (hc : j.Clean) {cmd : Command}
    (hok : j.FlagOk cmd) :
    ∃ s', s.exec cmd = some s' ∧ Sim Q s' (j.exec cmd) ∧ (j.exec cmd).Clean := by
  suffices hj : j.Playable cmd ∧ (j.exec cmd).Clean by
    obtain ⟨s', hs', hsim⟩ := h.step hj.1
    exact ⟨s', hs', hsim, hj.2⟩
  cases cmd with
  | edit e =>
    have he := Journal.meets_admits h.rep.int hok.1 hok.2
    exact ⟨he, hc.edit h.rep.int he⟩
  | undo => exact ⟨hc.playable_undo hok, hc.undo h.rep.int hok⟩
  | redo => exact ⟨hc.playable_redo hok, hc.redo hok⟩
  | save w => exact ⟨True.intro, hc.save⟩

theorem Journal.clean_loaded (text : List UInt8) (cmd : CmdFunc) : (Journal.loaded text cmd).Clean := by
  refine ⟨⟨Chain.nil text, fun e he => absurd he (by simp [Journal.loaded])⟩, ?_, fun _ => rfl,
    fun e he => absurd he (by simp [Journal.loaded])⟩
  intro c hc
  rw [Journal.start_of_noLog rfl] at hc
  exact absurd hc (by simp [Journal.loaded])

/-- **The flag is sound in every run whose steps all meet the condition**: when it is clear, the
text is that of the last save, or the one that was loaded. -/
theorem modified_sound {s : EditState σ} {text : List UInt8} (hs : s.Loaded text)
    {cmds : List Command}
    (hok : Meets Journal.FlagOk Journal.exec (Journal.loaded text s.lastCmdFunc) cmds) :
    ∃ s', run EditState.exec s cmds = some s' ∧ (s'.b.log.modified = false → s'.b.contents = s'.file) := by
  have hstep : ∀ (s : EditState σ) (j : Journal) (cmd : Command),
      Sim PageInv.trivial s j ∧ j.Clean → j.FlagOk cmd →
      ∃ s', s.exec cmd = some s' ∧ Sim PageInv.trivial s' (j.exec cmd) ∧ (j.exec cmd).Clean :=
    fun s j cmd h hok => h.1.step_clean h.2 hok
  obtain ⟨s', hrun, hsim, hclean⟩ := run_simulates hstep cmds s _
    ⟨hs.sim, Journal.clean_loaded text s.lastCmdFunc⟩ hok
  refine ⟨s', hrun, fun hm => ?_⟩
  rw [hsim.rep.holds.contents, hsim.file]
  exact hclean.flag (hsim.rep.modified.symm.trans hm)

end Run

/-- A `write(2)` that takes everything at once. -/
def WriteCall.all : WriteCall where
  accept _ len := len
  pos _ _ h := h
  le _ _ := Nat.le_refl _

/-- An edit, a save, an edit and an undo: the flag is clear and the text is that of the file. -/
theorem modified_sound_save_undo :
    ∃ s', run EditState.exec (EditState.new () []) [.edit (.insert 0 (.ofList [97])),
        .save WriteCall.all, .edit (.delete 0 1), .undo] = some s' ∧
      (s'.b.log.modified = false → s'.b.contents = s'.file) :=
  modified_sound (EditState.loaded_new () []) (by decide +kernel)

/-- An edit, a save and an undo: the flag is clear, and the file has a byte the text has not. -/
theorem save_then_undo_unsound :
    ∃ s', run EditState.exec (EditState.new () []) [.edit (.insert 0 (.ofList [97])),
        .save WriteCall.all, .undo] = some s' ∧
      s'.b.log.modified = false ∧ s'.b.contents ≠ s'.file := by
  have hrun : (run EditState.exec (EditState.new () []) [.edit (.insert 0 (.ofList [97])),
      .save WriteCall.all, .undo]).map
        (fun s => (s.b.log.modified, s.b.contents, s.file)) = some (false, [], [97]) := by
    decide +kernel
  obtain ⟨s', hs', hval⟩ := Option.map_eq_some_iff.mp hrun
  simp only [Prod.mk.injEq] at hval
  obtain ⟨hmod, hcont, hfile⟩ := hval
  refine ⟨s', hs', hmod, ?_⟩
  rw [hcont, hfile]
  decide

end Qemacs
