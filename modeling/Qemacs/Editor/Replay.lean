import Mathlib.Data.List.Basic

/-!
# The last keyboard macro

`qe_key_process` gives each key to `macro_add_key` while a macro is defined, and `do_call_last_kbd_macro` gives
them back. A key is an `int`, and the array it is kept in is one of `unsigned short`, which grows by
`MACRO_KEY_INCR` when it is full: it has room for any number of keys, but not for a character beyond U+FFFF.
-/

namespace Qemacs

/-! ## The functions -/

/-- The part of `QEmacsState` that is about the macro. `macro_keys_size` is the length of `macroKeys`; what is
in the array from `nbMacroKeys` on was not set. -/
structure MacroState where
  definingMacro : Bool
  macroKeys : List UInt16
  nbMacroKeys : Nat
  macroKeyIndex : Int

def macroKeyIncr : Nat := 64

/-- What an assignment to an `unsigned short` keeps of a key. -/
def toUshort (key : Int) : UInt16 := UInt16.ofNat (key % 65536).toNat

namespace MacroState

def doStartKbdMacro (qs : MacroState) : MacroState :=
  if qs.definingMacro then { qs with definingMacro := false }
  else { qs with definingMacro := true, macroKeys := [], nbMacroKeys := 0 }

/-- `macro_add_key`, for memory that can be allocated, with `junk` in it. -/
def macroAddKey (junk : Nat → UInt16) (qs : MacroState) (key : Int) : MacroState :=
  let macroKeys :=
    if qs.nbMacroKeys ≥ qs.macroKeys.length then qs.macroKeys ++ (List.range macroKeyIncr).map junk
    else qs.macroKeys
  { qs with macroKeys := macroKeys.set qs.nbMacroKeys (toUshort key), nbMacroKeys := qs.nbMacroKeys + 1 }

def doEndKbdMacro (qs : MacroState) : MacroState :=
  if qs.macroKeyIndex ≠ -1 then qs
  else if ¬qs.definingMacro then qs
  else { qs with definingMacro := false }

/-- The loop of `do_call_last_kbd_macro`, from `macro_key_index` on: the keys `qe_key_process` is called with,
where what it executes does not touch this state. -/
def callLoop (qs : MacroState) : Nat → Nat → List Int
  | 0, _ => []
  | fuel + 1, index =>
      if index < qs.nbMacroKeys then ((qs.macroKeys.getD index 0).toNat : Int) :: qs.callLoop fuel (index + 1)
      else []

/-- `do_call_last_kbd_macro`: the state, and the keys. -/
def doCallLastKbdMacro (qs : MacroState) : MacroState × List Int :=
  if qs.definingMacro then ({ qs with definingMacro := false }, [])
  else if qs.nbMacroKeys > 0 then ({ qs with macroKeyIndex := -1 }, qs.callLoop (qs.nbMacroKeys + 1) 0)
  else (qs, [])

/-! ## What is recorded -/

/-- The array holds the keys. -/
structure Records (qs : MacroState) (keys : List Int) : Prop where
  count : qs.nbMacroKeys = keys.length
  room : qs.nbMacroKeys ≤ qs.macroKeys.length
  keys : qs.macroKeys.take qs.nbMacroKeys = keys.map toUshort

theorem Records.add {qs : MacroState} {keys : List Int} (h : qs.Records keys) (junk : Nat → UInt16) (key : Int) :
    (qs.macroAddKey junk key).Records (keys ++ [key]) := by
  have hgrow : ∃ more, qs.macroAddKey junk key = { qs with
      macroKeys := (qs.macroKeys ++ more).set qs.nbMacroKeys (toUshort key), nbMacroKeys := qs.nbMacroKeys + 1 } ∧
      qs.nbMacroKeys < (qs.macroKeys ++ more).length := by
    have hroom := h.room
    by_cases hfull : qs.nbMacroKeys ≥ qs.macroKeys.length
    · refine ⟨(List.range macroKeyIncr).map junk, by rw [macroAddKey, if_pos hfull], ?_⟩
      rw [List.length_append, List.length_map, List.length_range, macroKeyIncr]
      omega
    · exact ⟨[], by rw [macroAddKey, if_neg hfull, List.append_nil], by rw [List.append_nil]; omega⟩
  obtain ⟨more, heq, hlt⟩ := hgrow
  rw [heq]
  refine ⟨?_, ?_, ?_⟩
  · simp [h.count]
  · simp only [List.length_set]
    omega
  · simp only [List.map_append, List.map_cons, List.map_nil, ← h.keys]
    rw [List.take_add_one, List.take_set_of_le (Nat.le_refl _), List.take_append_of_le_length h.room,
      List.getElem?_set_self hlt]
    rfl

theorem Records.adds (junk : Nat → UInt16) : ∀ {more keys : List Int} {qs : MacroState}, qs.Records keys →
    (more.foldl (macroAddKey junk) qs).Records (keys ++ more) := by
  intro more
  induction more with
  | nil =>
    intro keys qs h
    rw [List.append_nil]
    exact h
  | cons key more ih =>
    intro keys qs h
    rw [List.foldl_cons, ← List.singleton_append, ← List.append_assoc]
    exact ih (h.add junk key)

theorem macroAddKey_rest (junk : Nat → UInt16) : ∀ {keys : List Int} {qs : MacroState},
    (keys.foldl (macroAddKey junk) qs).definingMacro = qs.definingMacro ∧
      (keys.foldl (macroAddKey junk) qs).macroKeyIndex = qs.macroKeyIndex := by
  intro keys
  induction keys with
  | nil => exact fun {qs} => ⟨rfl, rfl⟩
  | cons key keys ih => exact fun {qs} => ih

theorem callLoop_eq {qs : MacroState} (hroom : qs.nbMacroKeys ≤ qs.macroKeys.length) : ∀ {fuel index : Nat},
    index ≤ qs.nbMacroKeys → qs.nbMacroKeys - index < fuel → qs.callLoop fuel index
      = ((qs.macroKeys.take qs.nbMacroKeys).drop index).map fun key => (key.toNat : Int) := by
  intro fuel
  induction fuel with
  | zero => intro index _ h; exact absurd h (Nat.not_lt_zero _)
  | succ fuel ih =>
    intro index hle hfuel
    rw [callLoop]
    by_cases hlt : index < qs.nbMacroKeys
    · have hlen : index < (qs.macroKeys.take qs.nbMacroKeys).length := by
        rw [List.length_take]
        omega
      rw [if_pos hlt, ih hlt (by omega), List.drop_eq_getElem_cons hlen, List.map_cons, List.getElem_take,
        List.getD_eq_getElem?_getD, List.getElem?_eq_getElem (by omega), Option.getD_some]
    · rw [if_neg hlt, List.drop_of_length_le (by rw [List.length_take]; omega), List.map_nil]

end MacroState

theorem toUshort_eq_iff (key : Int) : ((toUshort key).toNat : Int) = key ↔ 0 ≤ key ∧ key < 65536 := by
  rw [toUshort, UInt16.toNat_ofNat_of_lt' (by rw [UInt16.size]; omega)]
  omega

/-- **A macro replays its keys** if and only if each of them fits in an `unsigned short`. -/
theorem macro_replays_iff (qs : MacroState) (hqs : qs.definingMacro = false) (hindex : qs.macroKeyIndex = -1)
    (junk : Nat → UInt16) (keys : List Int) :
    (keys.foldl (MacroState.macroAddKey junk) qs.doStartKbdMacro).doEndKbdMacro.doCallLastKbdMacro.2 = keys ↔
      ∀ key ∈ keys, 0 ≤ key ∧ key < 65536 := by
  have hstart : qs.doStartKbdMacro.Records [] ∧ qs.doStartKbdMacro.definingMacro = true ∧
      qs.doStartKbdMacro.macroKeyIndex = -1 := by
    rw [MacroState.doStartKbdMacro, if_neg (by rw [hqs]; exact Bool.false_ne_true)]
    exact ⟨⟨rfl, Nat.le_refl 0, rfl⟩, rfl, hindex⟩
  obtain ⟨hrec, hdef, hidx⟩ := hstart
  have hall := @MacroState.Records.adds junk keys [] _ hrec
  obtain ⟨hdef', hidx'⟩ := @MacroState.macroAddKey_rest junk keys qs.doStartKbdMacro
  generalize keys.foldl (MacroState.macroAddKey junk) qs.doStartKbdMacro = qs' at *
  rw [List.nil_append] at hall
  have hreplay : qs'.doEndKbdMacro.doCallLastKbdMacro.2 = keys.map fun key => ((toUshort key).toNat : Int) := by
    rw [MacroState.doEndKbdMacro, if_neg (by rw [hidx', hidx]; simp), if_neg (by rw [hdef', hdef]; simp)]
    rw [MacroState.doCallLastKbdMacro, if_neg Bool.false_ne_true]
    split
    · have hloop := @MacroState.callLoop_eq { qs' with definingMacro := false } hall.room (qs'.nbMacroKeys + 1) 0
        (Nat.zero_le _) (Nat.lt_succ_self _)
      refine hloop.trans ?_
      rw [List.drop_zero, hall.keys, List.map_map]
      rfl
    · rename_i hnone
      have hnil : keys = [] := List.length_eq_zero_iff.mp (by rw [← hall.count]; exact Nat.eq_zero_of_not_pos hnone)
      rw [hnil]
      rfl
  have hself : keys.map (fun key => ((toUshort key).toNat : Int)) = keys ↔
      keys.map (fun key => ((toUshort key).toNat : Int)) = keys.map id := by rw [List.map_id]
  rw [hreplay, hself, List.map_inj_left]
  exact forall₂_congr fun key _ => toUshort_eq_iff key

theorem macro_replays_iff_x : ([120, 0xE100].foldl (MacroState.macroAddKey fun _ => 0)
    (MacroState.doStartKbdMacro ⟨false, [], 0, -1⟩)).doEndKbdMacro.doCallLastKbdMacro.2 = [120, 0xE100] ↔
      ∀ key ∈ [(120 : Int), 0xE100], 0 ≤ key ∧ key < 65536 :=
  macro_replays_iff ⟨false, [], 0, -1⟩ rfl rfl (fun _ => 0) [120, 0xE100]

/-- The key of U+1F600 comes back as that of U+F600. -/
theorem macro_loses_plane : ¬([0x1F600].foldl (MacroState.macroAddKey fun _ => 0)
    (MacroState.doStartKbdMacro ⟨false, [], 0, -1⟩)).doEndKbdMacro.doCallLastKbdMacro.2 = [0x1F600] := by
  decide +kernel

end Qemacs
