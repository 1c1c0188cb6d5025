import Qemacs.Editor.Binding
import Qemacs.Util.Key

/-!
# Backspace as `C-h`

`do_toggle_control_h` rewrites the keys of all bindings in place: to set the mode it takes `C-h` to `M-h` and
`DEL` to `C-h`, and to clear it the same way back. On a binding that already has `M-h` the first rewrite does
nothing, and the way back takes it for one that had `C-h`.
-/

namespace Qemacs

/-! ## The function -/

/-- `KEY_CTRL('h')`. -/
def keyCtrlH : UInt32 := UInt32.ofNat (keyCtrl 'h'.toNat)

/-- `KEY_META('h')`. -/
def keyMetaH : UInt32 := UInt32.ofNat (keyMeta 'h'.toNat)

def keyDel : UInt32 := 127

/-- The switch in the loop: what becomes of one key. -/
def controlHKey (set : Bool) (key : UInt32) : UInt32 :=
  if key = keyCtrlH then (if set then keyMetaH else keyDel)
  else if key = keyDel then (if set then keyCtrlH else key)
  else if key = keyMetaH then (if set then key else keyCtrlH)
  else key

/-- The bindings of all modes and the global ones, and `backspace_is_control_h`, a variable that may also be
assigned. -/
structure KeyMaps (δ : Type) where
  modes : List (List (KeyDef δ))
  global : List (KeyDef δ)
  backspaceIsControlH : Int

section Toggle

variable {δ : Type}

/-- The loop over the bindings of a mode. -/
def rewriteKeys (set : Bool) (first : List (KeyDef δ)) : List (KeyDef δ) :=
  first.map fun kd => { kd with keys := kd.keys.map (controlHKey set) }

/-- What `set` comes to: its sign, or the other mode if it is 0. -/
def KeyMaps.controlHMode (km : KeyMaps δ) (set : Int) : Bool :=
  if set ≠ 0 then decide (set > 0) else decide (km.backspaceIsControlH = 0)

def KeyMaps.doToggleControlH (km : KeyMaps δ) (set : Int) : KeyMaps δ :=
  let mode := km.controlHMode set
  if km.backspaceIsControlH = (if mode then 1 else 0) then km
  else { modes := km.modes.map (rewriteKeys mode), global := rewriteKeys mode km.global
         backspaceIsControlH := if mode then 1 else 0 }

/-- The keys of all bindings, one binding after the other. -/
def KeyMaps.sequences (km : KeyMaps δ) : List (List (List UInt32)) :=
  (km.modes ++ [km.global]).map fun first => first.map KeyDef.keys

/-- A binding has the key. -/
def KeyMaps.Binds (km : KeyMaps δ) (key : UInt32) : Prop := ∃ keys ∈ km.sequences.flatten, key ∈ keys

/-! ## There and back -/

theorem controlHKey_inverse (key : UInt32) : controlHKey false (controlHKey true key) = key ↔ key ≠ keyMetaH := by
  by_cases hctrl : key = keyCtrlH
  · subst hctrl
    decide
  by_cases hdel : key = keyDel
  · subst hdel
    decide
  by_cases hmeta : key = keyMetaH
  · subst hmeta
    decide
  · simp [controlHKey, hctrl, hdel, hmeta]

theorem controlHKey_clear (key : UInt32) : controlHKey false key = key ↔ key ≠ keyCtrlH ∧ key ≠ keyMetaH := by
  by_cases hctrl : key = keyCtrlH
  · subst hctrl
    decide
  by_cases hmeta : key = keyMetaH
  · subst hmeta
    decide
  · by_cases hdel : key = keyDel
    · subst hdel
      decide
    · simp [controlHKey, hctrl, hdel, hmeta]

theorem map_eq_self_iff {α : Type} {f : α → α} {l : List α} : l.map f = l ↔ ∀ a ∈ l, f a = a := by
  have hself : l.map f = l ↔ l.map f = l.map id := by rw [List.map_id]
  exact hself.trans List.map_inj_left

theorem map_sequences_eq_self {f : UInt32 → UInt32} (ls : List (List (List UInt32))) :
    ls.map (List.map (List.map f)) = ls ↔ ∀ keys ∈ ls.flatten, ∀ key ∈ keys, f key = key := by
  simp only [map_eq_self_iff, List.mem_flatten]
  exact ⟨fun h keys ⟨l, hl, hkeys⟩ => h l hl keys hkeys, fun h l hl keys hkeys => h keys ⟨l, hl, hkeys⟩⟩

theorem KeyMaps.sequences_rewrite (km : KeyMaps δ) (set : Bool) (b : Int) :
    ({ modes := km.modes.map (rewriteKeys set), global := rewriteKeys set km.global,
       backspaceIsControlH := b } : KeyMaps δ).sequences = km.sequences.map (List.map (List.map (controlHKey set))) := by
  simp [sequences, rewriteKeys, Function.comp_def]

theorem KeyMaps.not_binds {km : KeyMaps δ} {key : UInt32} :
    ¬km.Binds key ↔ ∀ keys ∈ km.sequences.flatten, ∀ key' ∈ keys, key' ≠ key := by
  unfold Binds
  constructor
  · rintro h keys hkeys key' hkey' rfl
    exact h ⟨keys, hkeys, hkey'⟩
  · rintro h ⟨keys, hkeys, hkey⟩
    exact h keys hkeys key hkey rfl

/-- **The mode is set and cleared again**: all bindings have their keys back if and only if none had `M-h`, and, where
the mode was set already, none had `C-h`. -/
theorem control_h_reversible_iff (km : KeyMaps δ) {set clear : Int} (hset : km.controlHMode set = true)
    (hclear : (km.doToggleControlH set).controlHMode clear = false) :
    ((km.doToggleControlH set).doToggleControlH clear).sequences = km.sequences ↔
      ¬km.Binds keyMetaH ∧ (km.backspaceIsControlH = 1 → ¬km.Binds keyCtrlH) := by
  have hfinish : ∀ {km' : KeyMaps δ}, km'.backspaceIsControlH = 1 → km'.controlHMode clear = false →
      (km'.doToggleControlH clear).sequences = km'.sequences.map (List.map (List.map (controlHKey false))) := by
    intro km' hmode hclear
    rw [KeyMaps.doToggleControlH]
    simp only [hclear, hmode, Bool.false_eq_true, if_false]
    rw [if_neg (by decide), KeyMaps.sequences_rewrite]
  by_cases hb : km.backspaceIsControlH = 1
  · -- the first call changes nothing
    have hsame : km.doToggleControlH set = km := by
      rw [KeyMaps.doToggleControlH]
      simp only [hset, if_true, if_pos hb]
    rw [hsame] at hclear ⊢
    rw [hfinish hb hclear, map_sequences_eq_self, KeyMaps.not_binds, KeyMaps.not_binds]
    simp only [controlHKey_clear, hb, true_implies]
    exact ⟨fun h => ⟨fun ks hks k hk => (h ks hks k hk).2, fun ks hks k hk => (h ks hks k hk).1⟩,
      fun h ks hks k hk => ⟨h.2 ks hks k hk, h.1 ks hks k hk⟩⟩
  · have hfirst : km.doToggleControlH set
        = ⟨km.modes.map (rewriteKeys true), rewriteKeys true km.global, 1⟩ := by
      rw [KeyMaps.doToggleControlH]
      simp only [hset, if_true, if_neg hb]
    have hboth : List.map (List.map (controlHKey false)) ∘ List.map (List.map (controlHKey true))
        = List.map (List.map (controlHKey false ∘ controlHKey true)) := by
      simp [Function.comp_def]
    rw [hfinish (by rw [hfirst]) hclear, hfirst, KeyMaps.sequences_rewrite, List.map_map, hboth,
      map_sequences_eq_self, KeyMaps.not_binds]
    simp only [Function.comp_apply, controlHKey_inverse, hb, false_implies, and_true]

end Toggle

/-- `mark-paragraph` is bound to `M-h`. -/
def metaHMap : KeyMaps String where
  modes := []
  global := [⟨"mark-paragraph", [keyMetaH]⟩]
  backspaceIsControlH := 0

theorem meta_h_is_not_restored : ¬((metaHMap.doToggleControlH 1).doToggleControlH (-1)).sequences = metaHMap.sequences := by
  decide

theorem control_h_reversible_iff_help :
    (((⟨[], [⟨"help", [keyCtrlH, 97]⟩], 0⟩ : KeyMaps String).doToggleControlH 1).doToggleControlH (-1)).sequences
        = [[[keyCtrlH, 97]]] ↔
      ¬(⟨[], [⟨"help", [keyCtrlH, 97]⟩], 0⟩ : KeyMaps String).Binds keyMetaH ∧
        ((0 : Int) = 1 → ¬(⟨[], [⟨"help", [keyCtrlH, 97]⟩], 0⟩ : KeyMaps String).Binds keyCtrlH) :=
  control_h_reversible_iff _ rfl rfl

end Qemacs
