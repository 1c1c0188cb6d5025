import Qemacs.Display.Wrap
import Qemacs.Script.Variable

/-!
# The tab width as a divisor

`tab-width` and `default-tab-width` are variables with the generic setter, "XXX: need set_value function": any
number is stored, also 0. Where columns are counted the width is used only if it is positive. `display_init` takes
it as it is, multiplies it by the width of a space, and `flush_fragment` divides by the product.

A buffer gets the default when it is made. So what divides is never zero in a run if and only if every width that
is assigned to a buffer, and the default whenever a buffer is made, has a product with the width of a space that is
not zero in an `int`.
-/

namespace Qemacs

/-! ## The display -/

namespace DisplayState

variable {f : DisplayFonts} {ds : DisplayState}

theorem nextLine_tabWidth (frag : TextFragment) (len : Nat) (x : Int) :
    (ds.nextLine frag len x).tabWidth = ds.tabWidth := by
  by_cases hmore : frag.len - len > 0
  · simp only [nextLine, if_pos hmore, keepLineChars, flushLine]
  · simp only [nextLine, if_neg hmore, keepLineChars, flushLine]

theorem wrapTurn_tabWidth {t : Lib.Turn DisplayState DisplayState} (h : ds.wrapTurn = some t) :
    t.state.tabWidth = ds.tabWidth := by
  rw [wrapTurn] at h
  split at h
  · cases h
    rfl
  · split at h
    · cases h
    · obtain ⟨fit, -, rfl⟩ := Option.map_eq_some_iff.mp h
      exact nextLine_tabWidth _ _ _

theorem turns_wrapTurn_tabWidth {fuel : Nat} {ds' : DisplayState} (h : Lib.turns wrapTurn fuel ds = some ds') :
    ds'.tabWidth = ds.tabWidth := by
  obtain ⟨last, hturns, hlast⟩ := Lib.Turns.last h
  rw [show ds'.tabWidth = last.tabWidth from wrapTurn_tabWidth hlast]
  clear h hlast
  induction hturns with
  | refl => rfl
  | next hstep _ ih => exact ih.trans (wrapTurn_tabWidth hstep)

theorem wrapWord_tabWidth : ds.wrapWord.tabWidth = ds.tabWidth := by
  rw [wrapWord]
  split
  · simp only [keepLineChars, flushLine]
  · rfl

theorem place_tabWidth : (ds.makeRoom.startWord.addFragment f).tabWidth = ds.tabWidth := by
  show ds.makeRoom.startWord.tabWidth = ds.tabWidth
  rw [startWord, makeRoom]
  split <;> split <;> rfl

theorem flushFragment_tabWidth {fuel : Nat} {ds' : DisplayState} (h : ds.flushFragment f fuel = some ds') :
    ds'.tabWidth = ds.tabWidth := by
  rw [flushFragment] at h
  split at h
  · cases h
    rfl
  · obtain ⟨ds₁, hwrapped, rfl⟩ := Option.map_eq_some_iff.mp h
    show ds₁.tabWidth = ds.tabWidth
    rw [← @place_tabWidth f ds]
    split at hwrapped
    · cases hwrapped
      rfl
    · cases hwrapped
      rfl
    · exact turns_wrapTurn_tabWidth hwrapped
    · exact turns_wrapTurn_tabWidth hwrapped
    · cases hwrapped
      exact wrapWord_tabWidth

theorem makeWay_tabWidth {fuel embeddingLevel ch : Nat} {ds' : DisplayState}
    (h : ds.makeWay f fuel embeddingLevel ch = some ds') : ds'.tabWidth = ds.tabWidth := by
  rw [makeWay] at h
  split at h
  · obtain ⟨ds₁, hflush, rfl⟩ := Option.map_eq_some_iff.mp h
    have hsame : (ds.beforeFlush f ch).tabWidth = ds.tabWidth := by
      rw [beforeFlush]
      split <;> rfl
    rw [← hsame, ← flushFragment_tabWidth hflush]
    split <;> rfl
  · cases h
    rfl

end DisplayState

section Displayed

variable {f : DisplayFonts} {e : DisplayWindow} {ds : DisplayState}

theorem Displayed.tabWidth (h : Displayed f e ds) : ds.tabWidth = f.glyphWidth 32 * e.tabWidth := by
  induction h with
  | init => rfl
  | bol _ _ ih => exact ih
  | style _ _ ih => exact ih
  | @char ds ds' fuel level ch _ hchar ih =>
    rw [DisplayState.displayCharBidir, Option.bind_eq_some_iff] at hchar
    obtain ⟨ds₁, hway, hchar⟩ := hchar
    rw [← ih, ← DisplayState.makeWay_tabWidth hway]
    split at hchar
    · exact (@DisplayState.flushFragment_tabWidth _ (ds₁.storeChar f level ch) _ _ hchar).trans rfl
    · cases hchar
      rfl
  | eol _ heol ih =>
    obtain ⟨ds₁, hflush, rfl⟩ := Option.map_eq_some_iff.mp heol
    rw [← ih, ← DisplayState.flushFragment_tabWidth hflush]
    rfl

theorem Flushes.tabWidth (h : Flushes f e ds) : ds.tabWidth = f.glyphWidth 32 * e.tabWidth := by
  cases h with
  | @word ds level ch hds _ =>
    rw [← hds.tabWidth, DisplayState.beforeFlush]
    split <;> rfl
  | tab hds hway => exact (DisplayState.makeWay_tabWidth hway).trans hds.tabWidth
  | eol hds => exact hds.tabWidth

end Displayed

/-! ## The variables -/

def tabWidthName : List UInt8 := asciiString "tab-width"

def defaultTabWidthName : List UInt8 := asciiString "default-tab-width"

/-- The entries of `var_table`. -/
def tabWidthVar (n : Int) : VarDef := ⟨tabWidthName, .rw, .num n, .generic⟩

def defaultTabWidthVar (n : Int) : VarDef := ⟨defaultTabWidthName, .rwSave, .num n, .generic⟩

/-- The variables, with `qs->default_tab_width` in one of them, and the `tab_width` of each buffer. -/
structure TabState where
  vars : VarStore
  buffers : List Int

def VarStore.number (vars : VarStore) (name : List UInt8) : Int :=
  match (qeFindVariable vars.first name).map VarDef.cell with
  | some (.num n) => n
  | _ => 0

/-- The variables in a window on a buffer with that tab width: `tab-width` is that of the buffer. -/
def TabState.varsOf (st : TabState) (tabWidth : Int) : VarStore :=
  { st.vars with first := replaceVariable tabWidthName (tabWidthVar tabWidth) st.vars.first }

/-- What changes a tab width: `qe_set_variable` in a window on a buffer, from the user or a script; `eb_new`;
`do_set_tab_width`; and the modes and lists that set the columns they need. -/
inductive TabOp
  | setVariable (b : Nat) (call : SetCall)
  | ebNew
  | doSetTabWidth (b : Nat) (tabWidth : Int)
  | setByMode (b : Nat) (tabWidth : Int)

def TabState.exec (st : TabState) : TabOp → TabState
  | .setVariable b call =>
      match st.buffers[b]? with
      | none => st
      | some tabWidth =>
          let vars := (qeSetVariable (st.varsOf tabWidth) call.name call.value call.num).2
          ⟨vars, st.buffers.set b (vars.number tabWidthName)⟩
  | .ebNew => { st with buffers := st.buffers ++ [st.vars.number defaultTabWidthName] }
  | .doSetTabWidth b tabWidth => if tabWidth > 1 then { st with buffers := st.buffers.set b tabWidth } else st
  | .setByMode b tabWidth => { st with buffers := st.buffers.set b tabWidth }

structure TabState.Predefined (st : TabState) : Prop where
  tabWidth : ∃ n, qeFindVariable st.vars.first tabWidthName = some (tabWidthVar n)
  default : ∃ n, qeFindVariable st.vars.first defaultTabWidthName = some (defaultTabWidthVar n)

/-- The number that a call gives to a number variable, unless it is refused. -/
def SetCall.number (call : SetCall) : Option Int :=
  match call.value with
  | none => some call.num
  | some str => if (strtolC str).2 = [] then some (wrap32 (strtolC str).1) else none

theorem VarDef.assign_number {vp : VarDef} {n : Int} (hrw : vp.rw ≠ .ro) (hset : vp.setValue = .generic)
    (hcell : vp.cell = .num n) (totalSize : Int) (call : SetCall) :
    (vp.assign totalSize call.value call.num).2 = { vp with cell := .num (call.number.getD n) } := by
  unfold VarDef.assign
  rw [if_neg hrw, SetCall.number]
  cases hvalue : call.value with
  | none => simp only [VarDef.set, hset, hcell, VarCell.setGeneric, Option.getD_some]
  | some str =>
    simp only [hcell, VarDef.set, hset]
    by_cases hend : (strtolC str).2 = []
    · simp only [if_pos hend, VarCell.setGeneric, Option.getD_some]
    · simp only [if_neg hend, VarCell.setGeneric, Option.getD_none]

section Vars

variable {st : TabState}

/-- An assignment gives the buffer, or the default, its number, and changes no other width. -/
theorem TabState.Predefined.setVariable (hst : st.Predefined) {b : Nat} {tabWidth : Int}
    (hb : st.buffers[b]? = some tabWidth) (call : SetCall) :
    (st.exec (.setVariable b call)).Predefined ∧ (st.exec (.setVariable b call)).buffers
      = st.buffers.set b (if call.name = tabWidthName then call.number.getD tabWidth else tabWidth) := by
  obtain ⟨⟨n, hn⟩, d, hd⟩ := hst
  have hfind : ∀ k, qeFindVariable (st.varsOf tabWidth).first k
      = if k = tabWidthName then some (tabWidthVar tabWidth) else qeFindVariable st.vars.first k := fun k =>
    find_replace rfl (by rw [hn]; rfl)
  have htab : qeFindVariable (qeSetVariable (st.varsOf tabWidth) call.name call.value call.num).2.first tabWidthName
      = some (tabWidthVar (if call.name = tabWidthName then call.number.getD tabWidth else tabWidth)) := by
    rw [qeSetVariable_find]
    by_cases hname : call.name = tabWidthName
    · rw [if_pos hname.symm, if_pos hname, hname, hfind, if_pos rfl]
      exact congrArg some (VarDef.assign_number QVarAccess.noConfusion rfl rfl _ call)
    · rw [if_neg (Ne.symm hname), if_neg hname, hfind, if_pos rfl]
  have hdefault : qeFindVariable (qeSetVariable (st.varsOf tabWidth) call.name call.value call.num).2.first
      defaultTabWidthName = some (defaultTabWidthVar (if call.name = defaultTabWidthName then call.number.getD d else d)) := by
    have hother : defaultTabWidthName ≠ tabWidthName := by decide
    rw [qeSetVariable_find]
    by_cases hname : call.name = defaultTabWidthName
    · rw [if_pos hname.symm, if_pos hname, hname, hfind, if_neg hother, hd]
      exact congrArg some (VarDef.assign_number QVarAccess.noConfusion rfl rfl _ call)
    · rw [if_neg (Ne.symm hname), if_neg hname, hfind, if_neg hother, hd]
  simp only [TabState.exec, hb]
  refine ⟨⟨⟨_, htab⟩, _, hdefault⟩, ?_⟩
  simp only [VarStore.number, htab, Option.map_some, tabWidthVar]

theorem TabState.Predefined.exec (hst : st.Predefined) (op : TabOp) : (st.exec op).Predefined := by
  cases op with
  | setVariable b call =>
    cases hb : st.buffers[b]? with
    | none => simpa only [TabState.exec, hb] using hst
    | some tabWidth => exact (hst.setVariable hb call).1
  | ebNew => exact ⟨hst.tabWidth, hst.default⟩
  | doSetTabWidth b tabWidth =>
    rw [TabState.exec]
    split
    · exact ⟨hst.tabWidth, hst.default⟩
    · exact hst
  | setByMode b tabWidth => exact ⟨hst.tabWidth, hst.default⟩

end Vars

/-! ## Divisors -/

/-- The product with the width of a space, whichever of these it is, is an `int` other than 0. -/
def TabSafe (spaces : Int → Prop) (tabWidth : Int) : Prop := ∀ w, spaces w → wrap32 (w * tabWidth) ≠ 0

/-- No division is by zero, in a buffer of that tab width: `text_screen_width` has a result for every text and part
of it, and so has `flush_fragment` for a TAB, whatever has been displayed in whichever window, in fonts whose
spaces have one of these widths. -/
structure DividesBy (spaces : Int → Prop) (tabWidth : Int) : Prop where
  counts (s : DecodeStateC) (mem : Uninit) (text : List UInt8) (wcwidth : Nat → Nat) {start stop : Int} :
    stop ≤ text.length → ∃ col, (s.reader mem text).textScreenWidth wcwidth start stop (tabColumns tabWidth) = some col
  displays {f : DisplayFonts} {e : DisplayWindow} {ds : DisplayState} : spaces (f.glyphWidth 32) →
    e.tabWidth = tabWidth → Flushes f e ds → ∃ w, ds.tabFragmentWidth = some w

def TabState.Divides (spaces : Int → Prop) (st : TabState) : Prop := ∀ tabWidth ∈ st.buffers, DividesBy spaces tabWidth

/-- The width that the step gives to a buffer is safe. -/
def TabState.StepSafe (spaces : Int → Prop) (st : TabState) : TabOp → Prop
  | .setVariable b call => call.name = tabWidthName → b < st.buffers.length → ∀ n ∈ call.number, TabSafe spaces n
  | .ebNew => TabSafe spaces (st.vars.number defaultTabWidthName)
  | .doSetTabWidth b tabWidth => tabWidth > 1 → b < st.buffers.length → TabSafe spaces tabWidth
  | .setByMode b tabWidth => b < st.buffers.length → TabSafe spaces tabWidth

section Divisors

variable {spaces : Int → Prop} {st : TabState}

theorem tabFragmentWidth_iff {ds : DisplayState} : (∃ w, ds.tabFragmentWidth = some w) ↔ wrap32 ds.tabWidth ≠ 0 := by
  have hwrap : Lib.wrap32 ds.tabWidth = wrap32 ds.tabWidth := by
    rw [Lib.wrap32, wrap32, Int.bmod_def]
    omega
  rw [DisplayState.tabFragmentWidth, remInt, hwrap]
  by_cases hzero : wrap32 ds.tabWidth = 0
  · simp [hzero]
  · simp [hzero]

theorem dividesBy_iff (tabWidth : Int) : DividesBy spaces tabWidth ↔ TabSafe spaces tabWidth := by
  constructor
  · intro h w hw
    -- the first line of a window in a font with that space
    let f : DisplayFonts := { fixedFonts with glyphWidth := fun _ => w }
    let e : DisplayWindow := { narrowWindow with tabWidth := tabWidth }
    exact tabFragmentWidth_iff.mp (h.displays (f := f) (e := e) hw rfl (.eol (.init false)))
  · intro h
    refine ⟨fun s mem text wcwidth _ _ hstop => ?_, fun {f e ds} hspace htab hflush => ?_⟩
    · exact textScreenWidth_total wcwidth hstop (Int.ne_of_gt (tabColumns_pos tabWidth))
    · rw [tabFragmentWidth_iff, hflush.tabWidth, htab]
      exact h _ hspace

/-- Where all widths are safe, all are after one is set, just when that one is. -/
theorem safe_set_iff {buffers : List Int} (h : ∀ tabWidth ∈ buffers, TabSafe spaces tabWidth) (b : Nat) (n : Int) :
    (∀ tabWidth ∈ buffers.set b n, TabSafe spaces tabWidth) ↔ (b < buffers.length → TabSafe spaces n) := by
  constructor
  · intro hset hb
    exact hset n (List.mem_set hb n)
  · intro hn tabWidth hmem
    by_cases hb : b < buffers.length
    · rcases List.mem_or_eq_of_mem_set hmem with hmem | rfl
      · exact h tabWidth hmem
      · exact hn hb
    · rw [List.set_eq_of_length_le (Nat.le_of_not_lt hb)] at hmem
      exact h tabWidth hmem

/-- **What one step does to the divisors.** -/
theorem TabState.exec_safe_iff (hst : st.Predefined) (h : ∀ tabWidth ∈ st.buffers, TabSafe spaces tabWidth)
    (op : TabOp) : (∀ tabWidth ∈ (st.exec op).buffers, TabSafe spaces tabWidth) ↔ st.StepSafe spaces op := by
  cases op with
  | setVariable b call =>
    cases hb : st.buffers[b]? with
    | none =>
      have hlen := List.getElem?_eq_none_iff.mp hb
      simp only [TabState.exec, hb]
      exact iff_of_true h fun _ hlt => absurd hlt (Nat.not_lt.mpr hlen)
    | some tabWidth =>
      have hmem : tabWidth ∈ st.buffers := List.mem_of_getElem? hb
      rw [(hst.setVariable hb call).2, safe_set_iff h, TabState.StepSafe]
      by_cases hname : call.name = tabWidthName
      · rw [if_pos hname]
        cases hnumber : call.number with
        | none => exact iff_of_true (fun _ => h tabWidth hmem) fun _ _ n hn => nomatch hn
        | some n => simp [hname]
      · rw [if_neg hname]
        exact iff_of_true (fun _ => h tabWidth hmem) fun heq => absurd heq hname
  | ebNew =>
    simp only [TabState.exec, TabState.StepSafe, List.mem_append, List.mem_singleton]
    exact ⟨fun hall => hall _ (.inr rfl), fun hn tabWidth hmem => hmem.elim (h tabWidth) fun heq => heq ▸ hn⟩
  | doSetTabWidth b tabWidth =>
    rw [TabState.exec, TabState.StepSafe]
    by_cases hgt : tabWidth > 1
    · rw [if_pos hgt, safe_set_iff h]
      exact ⟨fun hn _ => hn, fun hn => hn hgt⟩
    · rw [if_neg hgt]
      exact iff_of_true h fun hgt' => absurd hgt' hgt
  | setByMode b tabWidth => exact safe_set_iff h b tabWidth

end Divisors

/-- **When no division by a tab width is by zero**: in every state of a run, in all its buffers, on every text, just
when every step of the run gives a safe width, if it gives one. -/
theorem tab_divisors_nonzero_iff (spaces : Int → Prop) {st : TabState} (hst : st.Predefined)
    (hstart : st.Divides spaces) (ops : List TabOp) :
    (∀ k, ((ops.take k).foldl TabState.exec st).Divides spaces) ↔
      Lib.Meets (fun st op => st.StepSafe spaces op) TabState.exec st ops := by
  have hsafe : ∀ st : TabState, st.Divides spaces ↔ ∀ tabWidth ∈ st.buffers, TabSafe spaces tabWidth := fun st =>
    forall₂_congr fun tabWidth _ => dividesBy_iff tabWidth
  have hiff := @Lib.foldl_invariant_iff _ _ TabState.exec (fun st op => st.StepSafe spaces op)
    (fun st => st.Predefined ∧ st.Divides spaces) (fun st op ⟨hst, h⟩ => by
      rw [hsafe] at h ⊢
      rw [and_iff_right (hst.exec op), TabState.exec_safe_iff hst h]) ops st ⟨hst, hstart⟩
  rw [← hiff]
  refine ⟨fun h k => ⟨?_, h k⟩, fun h k => (h k).2⟩
  exact @Lib.foldl_invariant _ _ _ (fun _ _ => True) _ (fun st op hst _ => hst.exec op) _ st hst (Lib.Meets.true _ _ st)

/-- An editor without buffers, in which the default is 8. -/
def freshTabs : TabState := ⟨⟨[defaultTabWidthVar 8, tabWidthVar 0], fun _ => none, 0⟩, []⟩

theorem freshTabs_predefined : freshTabs.Predefined := ⟨⟨0, by decide⟩, 8, by decide⟩

theorem tab_divisors_nonzero_iff_four :
    (∀ k, (([.ebNew, .setVariable 0 ⟨tabWidthName, some (asciiString "4"), 0⟩] : List TabOp).take k).foldl TabState.exec
      freshTabs |>.Divides (· = 1)) ↔
      Lib.Meets (fun st op => st.StepSafe (· = 1) op) TabState.exec freshTabs
        [.ebNew, .setVariable 0 ⟨tabWidthName, some (asciiString "4"), 0⟩] :=
  tab_divisors_nonzero_iff (· = 1) freshTabs_predefined (fun _ h => nomatch h) _

/-- `set-variable tab-width 0` on a terminal, and then a letter and a TAB: `flush_fragment` divides by zero. -/
theorem zero_tab_width_divides :
    (([.ebNew, .setVariable 0 ⟨tabWidthName, some (asciiString "0"), 0⟩] : List TabOp).foldl TabState.exec
      freshTabs).buffers = [0] ∧
    ∃ ds ds', (displayInit fixedFonts { narrowWindow with tabWidth := 0 } false).displayPrintf fixedFonts 1 [97] = some ds ∧
      ds.makeWay fixedFonts 1 0 9 = some ds' ∧ (ds'.storeChar fixedFonts 0 9).fragmentChars = [9] ∧
      (ds'.storeChar fixedFonts 0 9).tabFragmentWidth = none :=
  ⟨by decide, _, _, rfl, rfl, by decide, by decide⟩

end Qemacs
