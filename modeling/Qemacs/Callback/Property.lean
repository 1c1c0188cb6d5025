import Qemacs.Callback.Watch
import Qemacs.Text.Flat

/-!
# Buffer properties stay where they were put

A property is a note attached to a place in a buffer: the function names a language mode finds are
kept that way. The list of properties is sorted by offset, and a callback moves the offsets when
the text changes. The callback is registered when the first property is added and taken out when
`eb_delete_properties` has removed the last one.

What properties are for is said with a *tape*: at every place there is a cell, which holds the byte
of the text (or none, before the text and after it) and what is attached to it. An edit puts cells
in and takes cells out, and whatever is attached to a cell goes with it. The program keeps no cells;
the theorem is that its list, read by offset, is the tape.

It is the theorem for runs in which a property is never added while the list is empty and the
callback is registered. That state exists: the callback itself removes the properties of deleted
text, and when that empties the list nothing takes the callback out. The next property then
registers it a second time, and from there on every edit moves the properties twice.
-/

namespace Qemacs

open Lib

/-! ## The program -/

def qePropTag : Int := 3

/-- `QEProperty`; `data` is the string that the pointer points to. -/
structure QEProperty where
  offset : Int
  type : Int
  data : List UInt8
  deriving DecidableEq, Repr

def ebPlistCallback (ps : List QEProperty) (op : LogOperation) (offset size : Nat) : List QEProperty :=
  match op with
  | .insert =>
      ps.map fun (p : QEProperty) =>
        if p.offset ≥ offset then { p with offset := wrap32 (p.offset + size) } else p
  | .delete =>
      ps.filterMap fun (p : QEProperty) =>
        if p.offset ≥ offset then
          -- "property is anchored inside block: remove it"
          if p.offset < wrap32 (offset + size) then none
          else some { p with offset := wrap32 (p.offset - size) }
        else some p
  | .write | .free => ps

/-- The loop of `eb_add_property`: the list with `q` in it, or nothing when it is a tag that is
there already. -/
def addPropertyLoop (q : QEProperty) : List QEProperty → Option (List QEProperty)
  | [] => some [q]
  | p :: ps =>
      if p.offset ≥ q.offset then
        if p.offset = q.offset then
          -- "prevent tag duplicates"
          if p.type = q.type ∧ q.type = qePropTag ∧ p.data = q.data then none
          else (addPropertyLoop q ps).map (p :: ·)
        else some (q :: p :: ps)
      else (addPropertyLoop q ps).map (p :: ·)

/-- The loop of `eb_delete_properties`, which ends at the first property from `offset2` on. -/
def deletePropertiesLoop (offset offset2 : Int) : List QEProperty → List QEProperty
  | [] => []
  | p :: ps =>
      if p.offset < offset2 then
        if p.offset ≥ offset ∧ p.offset < offset2 then deletePropertiesLoop offset offset2 ps
        else p :: deletePropertiesLoop offset offset2 ps
      else p :: ps

section Functions

variable {ρ : Type}

def Watched.ebAddProperty (w : Watched (List QEProperty) ρ) (q : QEProperty) : Watched (List QEProperty) ρ :=
  let w := if w.state = [] then w.ebAddCallback else w
  match addPropertyLoop q w.state with
  | some ps => { w with state := ps }
  | none => w

def Watched.ebDeleteProperties (w : Watched (List QEProperty) ρ) (offset offset2 : Int) :
    Watched (List QEProperty) ρ :=
  if w.state = [] then w
  else
    let w := { w with state := deletePropertiesLoop offset offset2 w.state }
    if w.state = [] then w.ebFreeCallback else w

theorem Watched.ebAddProperty_state {w : Watched (List QEProperty) ρ} {q : QEProperty} :
    (w.ebAddProperty q).state = (addPropertyLoop q w.state).getD w.state := by
  have hsame : (if w.state = [] then w.ebAddCallback else w).state = w.state := by
    split <;> rfl
  simp only [Watched.ebAddProperty, hsame]
  cases addPropertyLoop q w.state with
  | none => exact hsame
  | some ps => rfl

theorem Watched.ebAddProperty_registered (w : Watched (List QEProperty) ρ) (q : QEProperty) :
    (w.ebAddProperty q).registered = if w.state = [] then w.registered + 1 else w.registered := by
  have hset : (w.ebAddProperty q).registered = (if w.state = [] then w.ebAddCallback else w).registered := by
    simp only [Watched.ebAddProperty]
    split <;> rfl
  rw [hset]
  split
  · exact Watched.registered_add w
  · rfl

theorem Watched.ebDeleteProperties_state {w : Watched (List QEProperty) ρ} {offset offset2 : Int} :
    (w.ebDeleteProperties offset offset2).state = deletePropertiesLoop offset offset2 w.state := by
  simp only [Watched.ebDeleteProperties]
  split
  · rename_i hnil
    rw [hnil]
    rfl
  · split <;> rfl

theorem Watched.ebDeleteProperties_registered (w : Watched (List QEProperty) ρ)
    (offset offset2 : Int) :
    (w.ebDeleteProperties offset offset2).registered
      = if w.state ≠ [] ∧ deletePropertiesLoop offset offset2 w.state = [] then w.registered - 1
        else w.registered := by
  simp only [Watched.ebDeleteProperties]
  split
  · rename_i hnil
    rw [if_neg (fun h => h.1 hnil)]
  · rename_i hne
    split
    · rename_i hemptied
      rw [if_pos ⟨hne, hemptied⟩]
      exact Watched.registered_free _
    · rename_i hleft
      rw [if_neg (fun h => hleft h.2)]
      rfl

/-- A call on a buffer with properties. -/
inductive PropertyCall
  | edit (e : Edit)
  | addProperty (offset type : Int) (data : List UInt8)
  | deleteProperties (offset offset2 : Int)

def EditBuffer.propertyList (b : EditBuffer (UndoLog (Watched (List QEProperty) ρ))) :
    List QEProperty := b.log.client.state

def EditBuffer.setProperties (b : EditBuffer (UndoLog (Watched (List QEProperty) ρ)))
    (w : Watched (List QEProperty) ρ) : EditBuffer (UndoLog (Watched (List QEProperty) ρ)) :=
  { b with log := { b.log with client := w } }

def EditBuffer.propertyCall (b : EditBuffer (UndoLog (Watched (List QEProperty) ρ))) :
    PropertyCall → Option (EditBuffer (UndoLog (Watched (List QEProperty) ρ)))
  | .edit e => (b.edit e).map Prod.snd
  | .addProperty offset type data =>
      some (b.setProperties (b.log.client.ebAddProperty ⟨offset, type, data⟩))
  | .deleteProperties offset offset2 =>
      some (b.setProperties (b.log.client.ebDeleteProperties offset offset2))

end Functions

/-! ## The tape -/

/-- What is attached to a cell: the type of a property and its data. -/
structure Tag where
  type : Int
  data : List UInt8
  deriving DecidableEq, Repr

/-- A place: its byte, and what is attached to it, in the order it came. -/
structure Cell where
  byte : Option UInt8 := none
  tags : List Tag := []
  deriving DecidableEq, Repr

/-- All places. The text is at the places from zero to `size`. -/
structure Tape where
  size : Nat
  cell : Int → Cell

/-- A text with nothing attached to it. -/
def Tape.ofText (text : List UInt8) : Tape where
  size := text.length
  cell i := { byte := placeAt text i }

/-- An edit puts in new cells, takes cells out, or writes to the cells that are there. -/
def Tape.change (t : Tape) : Change → Tape
  | .insert offset data =>
      { size := t.size + data.length
        cell := fun i =>
          if i < offset then t.cell i
          else if i < (offset + data.length : Nat) then { byte := placeAt data (i - offset) }
          else t.cell (i - data.length) }
  | .delete offset size =>
      { size := t.size - size
        cell := fun i => if i < offset then t.cell i else t.cell (i + size) }
  | .write offset data =>
      { t with
        cell := fun i =>
          if i < offset then t.cell i
          else if i < (offset + data.length : Nat) then
            { t.cell i with byte := placeAt data (i - offset) }
          else t.cell i }

/-- A tag is attached once to a cell; anything else as often as it is added. -/
def Cell.attach (c : Cell) (tag : Tag) : Cell :=
  if tag.type = qePropTag ∧ tag ∈ c.tags then c else { c with tags := c.tags ++ [tag] }

def Tape.call (t : Tape) : PropertyCall → Tape
  | .edit e => (e.changes t.size).foldl Tape.change t
  | .addProperty offset type data =>
      { t with cell := fun i => if i = offset then (t.cell i).attach ⟨type, data⟩ else t.cell i }
  | .deleteProperties offset offset2 =>
      { t with cell := fun i =>
          if offset ≤ i ∧ i < offset2 then { t.cell i with tags := [] } else t.cell i }

/-! ## A list of properties is a tape -/

def QEProperty.tag (p : QEProperty) : Tag := ⟨p.type, p.data⟩

/-- What a list of properties attaches to a place. -/
def tagsAt (ps : List QEProperty) (i : Int) : List Tag :=
  (ps.filter fun p => p.offset = i).map QEProperty.tag

/-- The text and the list of properties, together, are the tape. -/
structure Tape.Is (t : Tape) (text : List UInt8) (ps : List QEProperty) : Prop where
  size : t.size = text.length
  bytes : ∀ i, (t.cell i).byte = placeAt text i
  tags : ∀ i, (t.cell i).tags = tagsAt ps i
  sorted : ps.Pairwise fun p q => p.offset ≤ q.offset

theorem tagsAt_cons (p : QEProperty) (ps : List QEProperty) (i : Int) :
    tagsAt (p :: ps) i = if p.offset = i then p.tag :: tagsAt ps i else tagsAt ps i := by
  unfold tagsAt
  by_cases h : p.offset = i <;> simp [h]

variable {ps : List QEProperty}

theorem mem_tagsAt {i : Int} {tag : Tag} : tag ∈ tagsAt ps i ↔ ∃ p ∈ ps, p.offset = i ∧ p.tag = tag := by
  simp [tagsAt, and_assoc]

theorem tagsAt_eq_nil {i : Int} (h : ∀ p ∈ ps, p.offset ≠ i) : tagsAt ps i = [] := by
  rw [tagsAt, List.filter_eq_nil_iff.mpr (fun p hp => by simpa using h p hp)]
  rfl

/-! ## Adding and deleting properties -/

theorem addPropertyLoop_spec (q : QEProperty) (h : ps.Pairwise fun p p' => p.offset ≤ p'.offset) :
    match addPropertyLoop q ps with
    | none => q.type = qePropTag ∧ q.tag ∈ tagsAt ps q.offset
    | some ps' =>
        ¬(q.type = qePropTag ∧ q.tag ∈ tagsAt ps q.offset) ∧
        (∀ i, tagsAt ps' i = if i = q.offset then tagsAt ps i ++ [q.tag] else tagsAt ps i) ∧
        (∀ p, p ∈ ps' ↔ p = q ∨ p ∈ ps) ∧ ps'.Pairwise fun p p' => p.offset ≤ p'.offset := by
  induction ps with
  | nil =>
    simp only [addPropertyLoop]
    refine ⟨by simp [tagsAt], fun i => ?_, by simp, by simp⟩
    rw [tagsAt_cons]
    by_cases hi : i = q.offset
    · rw [if_pos hi, if_pos hi.symm]; rfl
    · rw [if_neg hi, if_neg (Ne.symm hi)]
  | cons p ps ih =>
    obtain ⟨hp, hps⟩ := List.pairwise_cons.mp h
    have ih := ih hps
    -- the list goes on: `p` stays in front of whatever comes of the rest
    have hgo : p.offset ≤ q.offset →
        ¬(p.offset = q.offset ∧ q.type = qePropTag ∧ p.tag = q.tag) →
        match (addPropertyLoop q ps).map (p :: ·) with
        | none => q.type = qePropTag ∧ q.tag ∈ tagsAt (p :: ps) q.offset
        | some ps' =>
            ¬(q.type = qePropTag ∧ q.tag ∈ tagsAt (p :: ps) q.offset) ∧
            (∀ i, tagsAt ps' i = if i = q.offset then tagsAt (p :: ps) i ++ [q.tag] else tagsAt (p :: ps) i) ∧
            (∀ x, x ∈ ps' ↔ x = q ∨ x ∈ p :: ps) ∧
            ps'.Pairwise fun p p' => p.offset ≤ p'.offset := by
      intro hle hdup
      cases hloop : addPropertyLoop q ps with
      | none =>
        rw [hloop] at ih
        refine ⟨ih.1, ?_⟩
        obtain ⟨x, hx, hxo⟩ := mem_tagsAt.mp ih.2
        exact mem_tagsAt.mpr ⟨x, List.mem_cons_of_mem _ hx, hxo⟩
      | some ps' =>
        rw [hloop] at ih
        obtain ⟨hnew, htags, hmem, hsorted⟩ := ih
        refine ⟨?_, ?_, ?_, ?_⟩
        · rintro ⟨htype, hin⟩
          obtain ⟨x, hx, hxo, hxt⟩ := mem_tagsAt.mp hin
          rcases List.mem_cons.mp hx with rfl | hx
          · exact hdup ⟨hxo, htype, hxt⟩
          · exact hnew ⟨htype, mem_tagsAt.mpr ⟨x, hx, hxo, hxt⟩⟩
        · intro i
          rw [tagsAt_cons, tagsAt_cons, htags]
          split <;> split <;> rfl
        · intro x
          rw [List.mem_cons, hmem, List.mem_cons, or_left_comm]
        · refine List.pairwise_cons.mpr ⟨?_, hsorted⟩
          intro x hx
          rcases (hmem x).mp hx with rfl | hx
          · exact hle
          · exact hp x hx
    rw [addPropertyLoop]
    by_cases hge : p.offset ≥ q.offset
    · rw [if_pos hge]
      by_cases heq : p.offset = q.offset
      · rw [if_pos heq]
        by_cases hdup : p.type = q.type ∧ q.type = qePropTag ∧ p.data = q.data
        · rw [if_pos hdup]
          obtain ⟨htype, htag, hdata⟩ := hdup
          exact ⟨htag, mem_tagsAt.mpr ⟨p, List.mem_cons_self, heq,
            by rw [QEProperty.tag, QEProperty.tag, htype, hdata]⟩⟩
        · rw [if_neg hdup]
          refine hgo (by omega) ?_
          rintro ⟨-, htag, htags⟩
          exact hdup ⟨congrArg Tag.type htags, htag, congrArg Tag.data htags⟩
      · rw [if_neg heq]
        -- everything from here on is behind `q`
        have hbehind : ∀ x ∈ p :: ps, q.offset < x.offset := by
          intro x hx
          rcases List.mem_cons.mp hx with rfl | hx
          · omega
          · have := hp x hx; omega
        have hnone : tagsAt (p :: ps) q.offset = [] :=
          tagsAt_eq_nil fun x hx => by have := hbehind x hx; omega
        refine ⟨by rw [hnone]; simp, ?_, fun x => List.mem_cons, ?_⟩
        · intro i
          rw [tagsAt_cons]
          by_cases hi : i = q.offset
          · rw [if_pos hi, if_pos hi.symm, hi, hnone]
            rfl
          · rw [if_neg hi, if_neg (Ne.symm hi)]
        · exact List.pairwise_cons.mpr ⟨fun x hx => by have := hbehind x hx; omega, h⟩
    · rw [if_neg hge]
      exact hgo (by omega) fun hdup => hge (by omega)

theorem deletePropertiesLoop_eq (offset offset2 : Int) (h : ps.Pairwise fun p q => p.offset ≤ q.offset) :
    deletePropertiesLoop offset offset2 ps = ps.filter fun p => ¬(offset ≤ p.offset ∧ p.offset < offset2) := by
  induction ps with
  | nil => rfl
  | cons p ps ih =>
    obtain ⟨hp, hps⟩ := List.pairwise_cons.mp h
    rw [deletePropertiesLoop]
    by_cases hlt : p.offset < offset2
    · rw [if_pos hlt]
      by_cases hin : p.offset ≥ offset ∧ p.offset < offset2
      · rw [if_pos hin, ih hps, List.filter_cons_of_neg (by simpa using hin)]
      · rw [if_neg hin, ih hps, List.filter_cons_of_pos (by simp; omega)]
    · rw [if_neg hlt, eq_comm, List.filter_eq_self]
      intro x hx
      rcases List.mem_cons.mp hx with rfl | hx
      · simp; omega
      · have := hp x hx
        simp; omega

theorem tagsAt_filter (offset offset2 : Int) (ps : List QEProperty) (i : Int) :
    tagsAt (ps.filter fun p => ¬(offset ≤ p.offset ∧ p.offset < offset2)) i
      = if offset ≤ i ∧ i < offset2 then [] else tagsAt ps i := by
  by_cases hi : offset ≤ i ∧ i < offset2
  · rw [if_pos hi]
    refine tagsAt_eq_nil fun p hp hpi => ?_
    have hp := (List.mem_filter.mp hp).2
    rw [hpi] at hp
    simp [hi] at hp
  · rw [if_neg hi, tagsAt, tagsAt, List.filter_filter]
    congr 1
    refine List.filter_congr fun p _ => ?_
    by_cases hpi : p.offset = i
    · simp only [hpi, hi, not_false_eq_true, decide_true, Bool.and_true]
    · simp [hpi]

/-! ## An edit -/

/-- Where a place goes when a change is made; nowhere when it is deleted. -/
def Change.move : Change → Int → Option Int
  | .insert offset data, i => some (if offset ≤ i then i + data.length else i)
  | .write _ _, i => some i
  | .delete offset size, i =>
      if offset ≤ i then if i < (offset + size : Nat) then none else some (i - size) else some i

/-- Where a place comes from; nowhere when it is new. -/
def Change.origin : Change → Int → Option Int
  | .insert offset data, i =>
      if i < offset then some i
      else if i < (offset + data.length : Nat) then none else some (i - data.length)
  | .write _ _, i => some i
  | .delete offset size, i => some (if i < offset then i else i + size)

theorem Change.move_eq_some (c : Change) (i k : Int) : c.move i = some k ↔ c.origin k = some i := by
  cases c with
  | insert offset data =>
    simp only [Change.move, Change.origin]
    grind
  | write offset data => exact ⟨fun h => h.symm, fun h => h.symm⟩
  | delete offset size =>
    simp only [Change.move, Change.origin]
    grind

theorem Change.move_mono (c : Change) {i k i' k' : Int} (h : i ≤ k) (hi : c.move i = some i')
    (hk : c.move k = some k') : i' ≤ k' := by
  cases c with
  | insert offset data =>
    simp only [Change.move, Option.some.injEq] at hi hk
    grind
  | write offset data =>
    rw [← Option.some.inj hi, ← Option.some.inj hk]
    exact h
  | delete offset size =>
    simp only [Change.move] at hi hk
    grind

/-- A property goes with its place. -/
def QEProperty.move (c : Change) (p : QEProperty) : Option QEProperty :=
  (c.move p.offset).map fun offset => { p with offset := offset }

theorem tagsAt_move (c : Change) (ps : List QEProperty) (i : Int) :
    tagsAt (ps.filterMap (QEProperty.move c)) i
      = match c.origin i with
        | some k => tagsAt ps k
        | none => [] := by
  induction ps with
  | nil => cases c.origin i <;> rfl
  | cons p ps ih =>
    have hi := c.move_eq_some p.offset i
    cases hm : c.move p.offset with
    | none =>
      rw [List.filterMap_cons_none (by rw [QEProperty.move, hm]; rfl), ih]
      cases ho : c.origin i with
      | none => rfl
      | some k =>
        have hne : p.offset ≠ k := by
          intro h
          rw [hm, ho, h] at hi
          exact absurd (hi.mpr rfl) (by simp)
        simp only [tagsAt_cons, if_neg hne]
    | some o =>
      rw [List.filterMap_cons_some (by rw [QEProperty.move, hm]; rfl), tagsAt_cons, ih]
      rw [hm] at hi
      by_cases hoi : o = i
      · rw [if_pos hoi, hi.mp (by rw [hoi])]
        simp only [tagsAt_cons, if_true]
        rfl
      · rw [if_neg hoi]
        cases ho : c.origin i with
        | none => rfl
        | some k =>
          have hne : p.offset ≠ k := by
            intro h
            rw [ho, h] at hi
            exact hoi (Option.some.inj (hi.mpr rfl))
          simp only [tagsAt_cons, if_neg hne]

theorem sorted_move (c : Change) (h : ps.Pairwise fun p q => p.offset ≤ q.offset) :
    (ps.filterMap (QEProperty.move c)).Pairwise fun p q => p.offset ≤ q.offset := by
  rw [List.pairwise_filterMap]
  refine h.imp ?_
  intro p q hpq p' hp' q' hq'
  obtain ⟨i, hi, rfl⟩ := Option.map_eq_some_iff.mp hp'
  obtain ⟨k, hk, rfl⟩ := Option.map_eq_some_iff.mp hq'
  exact c.move_mono hpq hi hk

/-- An insertion leaves the offsets it moves inside an `int`. -/
def PropertiesFit (ps : List QEProperty) (c : Change) : Prop :=
  c.op = .insert → ∀ p ∈ ps, (c.offset : Int) ≤ p.offset → p.offset + c.size ≤ intMax

@[simp] theorem ebPlistCallback_nil (op : LogOperation) (offset size : Nat) :
    ebPlistCallback [] op offset size = [] := by
  cases op <;> rfl

theorem follow_ebPlistCallback_nil (cs : List Change) : follow ebPlistCallback [] cs = [] := by
  induction cs with
  | nil => rfl
  | cons c cs ih => rw [follow_cons, ebPlistCallback_nil, ih]

variable {text : List UInt8}

/-- **The callback moves each property with its place.** -/
theorem ebPlistCallback_eq {c : Change} (hint : ∀ p ∈ ps, IsInt32 p.offset) (hc : c.Fits text.length)
    (htext : (text.length : Int) ≤ intMax) (hfit : PropertiesFit ps c) :
    ebPlistCallback ps c.op c.offset c.size = ps.filterMap (QEProperty.move c) ∧
      ∀ p ∈ ps.filterMap (QEProperty.move c), IsInt32 p.offset := by
  have hmoved : ∀ p ∈ ps, ∀ i, c.move p.offset = some i → IsInt32 i := by
    intro p hp i hi
    have hpi := hint p hp
    have hfp := fun h => hfit h p hp
    unfold IsInt32 at hpi ⊢
    cases c with
    | insert offset data =>
      have hfp := hfp rfl
      simp only [Change.move, Option.some.injEq, Change.offset, Change.size] at hi hfp
      grind
    | write offset data =>
      rw [← Option.some.inj hi]
      exact hpi
    | delete offset size =>
      simp only [Change.move] at hi
      grind
  refine ⟨?_, ?_⟩
  · cases c with
    | insert offset data =>
      change (ps.map fun p => if p.offset ≥ (offset : Int) then
        { p with offset := wrap32 (p.offset + data.length) } else p) = _
      rw [← List.filterMap_eq_map]
      refine List.filterMap_congr fun p hp => ?_
      have hi := hmoved p hp _ rfl
      simp only [QEProperty.move, Change.move, Option.map_some, Function.comp]
      by_cases hle : (offset : Int) ≤ p.offset
      · rw [if_pos hle] at hi ⊢
        rw [if_pos (show p.offset ≥ offset from hle), wrap32_of_isInt32 hi]
      · rw [if_neg hle, if_neg (show ¬p.offset ≥ offset from hle)]
    | write offset data =>
      exact (List.filterMap_some).symm
    | delete offset size =>
      refine List.filterMap_congr fun p hp => ?_
      have hend : wrap32 ((offset : Int) + size) = (offset + size : Nat) := by
        have := hc.1
        rw [wrap32_of_isInt32 (by unfold IsInt32; omega)]
        omega
      have hi := hmoved p hp (p.offset - size)
      simp only [QEProperty.move, Change.move, Change.offset, Change.size, hend] at hi ⊢
      by_cases hle : (offset : Int) ≤ p.offset
      · rw [if_pos hle] at hi ⊢
        rw [if_pos hle]
        by_cases hin : p.offset < (offset + size : Nat)
        · rw [if_pos hin, if_pos hin]
          rfl
        · rw [if_neg hin] at hi ⊢
          rw [if_neg hin, wrap32_of_isInt32 (hi rfl)]
          rfl
      · rw [if_neg hle, if_neg hle]
        rfl
  · intro p' hp'
    obtain ⟨p, hp, hmove⟩ := List.mem_filterMap.mp hp'
    obtain ⟨i, hi, rfl⟩ := Option.map_eq_some_iff.mp hmove
    exact hmoved p hp i hi

variable {t : Tape}

/-- An edit of the text moves the properties, and both are the tape again. -/
theorem Tape.Is.change (h : t.Is text ps) {c : Change} (hc : c.Fits text.length) :
    (t.change c).Is (c.apply text) (ps.filterMap (QEProperty.move c)) := by
  cases c with
  | insert offset data =>
    obtain ⟨hle, -⟩ := hc
    refine ⟨?_, ?_, ?_, sorted_move _ h.sorted⟩
    · simp only [Tape.change, Change.apply, length_insertAt, h.size]
    · intro i
      simp only [Tape.change, Change.apply, placeAt_insertAt hle, apply_ite Cell.byte, h.bytes]
    · intro i
      simp only [Tape.change, tagsAt_move, Change.origin, apply_ite Cell.tags, h.tags]
      split
      · rfl
      · split <;> rfl
  | write offset data =>
    obtain ⟨hle, -⟩ := hc
    refine ⟨?_, ?_, ?_, sorted_move _ h.sorted⟩
    · simp only [Tape.change, Change.apply, length_overwriteAt hle, h.size]
    · intro i
      simp only [Tape.change, Change.apply, placeAt_overwriteAt hle, apply_ite Cell.byte, h.bytes]
    · intro i
      simp only [Tape.change, tagsAt_move, Change.origin, apply_ite Cell.tags, h.tags, ite_self]
  | delete offset size =>
    obtain ⟨hle, -⟩ := hc
    refine ⟨?_, ?_, ?_, sorted_move _ h.sorted⟩
    · simp only [Tape.change, Change.apply, length_deleteAt hle, h.size]
    · intro i
      simp only [Tape.change, Change.apply, placeAt_deleteAt hle, apply_ite Cell.byte, h.bytes]
    · intro i
      simp only [Tape.change, tagsAt_move, Change.origin, apply_ite Cell.tags, h.tags]
      split <;> rfl

theorem Tape.Is.changes : ∀ {cs : List Change} {t : Tape} {text : List UInt8}
    {ps : List QEProperty}, t.Is text ps → (∀ p ∈ ps, IsInt32 p.offset) →
    (text.length : Int) ≤ intMax → Meets Change.Ok (fun t c => c.apply t) text cs →
    Meets PropertiesFit (fun ps c => ebPlistCallback ps c.op c.offset c.size) ps cs →
    (cs.foldl Tape.change t).Is (cs.foldl (fun t c => c.apply t) text)
        (follow ebPlistCallback ps cs) ∧
      ∀ p ∈ follow ebPlistCallback ps cs, IsInt32 p.offset := by
  intro cs
  induction cs with
  | nil => intro t text ps h hint _ _ _; exact ⟨h, hint⟩
  | cons c cs ih =>
    intro t text ps h hint htext hok hfit
    obtain ⟨heq, hint'⟩ := ebPlistCallback_eq hint hok.1.fits htext hfit.1
    have hfit' : Meets PropertiesFit (fun ps c => ebPlistCallback ps c.op c.offset c.size)
        (ebPlistCallback ps c.op c.offset c.size) cs := hfit.2
    rw [heq] at hfit'
    have hrest := ih (h.change hok.1.fits) hint' hok.1.int hok.2 hfit'
    rw [follow_cons, heq]
    exact hrest

theorem Tape.Is.addProperty {ps' : List QEProperty} (h : t.Is text ps) (q : QEProperty)
    (hps' : ps' = (addPropertyLoop q ps).getD ps) :
    (t.call (.addProperty q.offset q.type q.data)).Is text ps' := by
  have hspec := addPropertyLoop_spec q h.sorted
  subst hps'
  cases hloop : addPropertyLoop q ps with
  | none =>
    rw [hloop] at hspec
    refine ⟨h.size, ?_, ?_, h.sorted⟩
    · intro i
      simp only [Tape.call, Cell.attach, apply_ite Cell.byte, h.bytes, ite_self]
    · intro i
      simp only [Tape.call, Cell.attach, apply_ite Cell.tags, h.tags]
      split
      · rename_i hi
        rw [hi]
        exact if_pos hspec
      · rfl
  | some ps' =>
    rw [hloop] at hspec
    obtain ⟨hnew, htags, -, hsorted⟩ := hspec
    refine ⟨h.size, ?_, ?_, hsorted⟩
    · intro i
      simp only [Tape.call, Cell.attach, apply_ite Cell.byte, h.bytes, ite_self]
    · intro i
      simp only [Tape.call, Cell.attach, apply_ite Cell.tags, h.tags, Option.getD_some, htags]
      split
      · rename_i hi
        rw [hi]
        exact if_neg hnew
      · rfl

theorem Tape.Is.deleteProperties (h : t.Is text ps) (offset offset2 : Int) :
    (t.call (.deleteProperties offset offset2)).Is text (deletePropertiesLoop offset offset2 ps) := by
  rw [deletePropertiesLoop_eq offset offset2 h.sorted]
  refine ⟨h.size, ?_, ?_, h.sorted.filter _⟩
  · intro i
    simp only [Tape.call, apply_ite Cell.byte, h.bytes, ite_self]
  · intro i
    simp only [Tape.call, apply_ite Cell.tags, h.tags, tagsAt_filter]

/-! ## Runs -/

section Runs

variable {ρ : Type}

/-- The condition on a call: the text stays inside an `int` and so do the offsets that are moved,
and a property is not added while the list is empty and the callback is still registered. -/
def PropertyCall.Ok (b : EditBuffer (UndoLog (Watched (List QEProperty) ρ))) : PropertyCall → Prop
  | .edit e =>
      ((e.apply b.contents).length : Int) ≤ intMax ∧
        Meets PropertiesFit (fun ps c => ebPlistCallback ps c.op c.offset c.size) b.propertyList
          (e.changes b.buf.totalSize)
  | .addProperty offset _ _ =>
      IsInt32 offset ∧ (b.propertyList = [] → b.log.client.registered = 0)
  | .deleteProperties _ _ => True

/-- The buffer and its properties are the tape, and the callback is registered when there is
something to do for it. -/
structure EditBuffer.Noted (b : EditBuffer (UndoLog (Watched (List QEProperty) ρ))) (t : Tape) :
    Prop where
  editable : ∃ s, b.Editable PageInv.trivial s b.contents
  watches : b.log.Watches ebPlistCallback
  is : t.Is b.contents b.propertyList
  ints : ∀ p ∈ b.propertyList, IsInt32 p.offset
  once : b.log.client.registered ≤ 1
  there : b.propertyList ≠ [] → b.log.client.registered = 1

theorem EditBuffer.Noted.edit {b : EditBuffer (UndoLog (Watched (List QEProperty) ρ))} {t : Tape}
    (h : b.Noted t) {e : Edit} (hok : (PropertyCall.edit e).Ok b) :
    ∃ b', b.propertyCall (.edit e) = some b' ∧ b'.Noted (t.call (.edit e)) := by
  obtain ⟨s, hedit⟩ := h.editable
  obtain ⟨hint, hfit⟩ := hok
  obtain ⟨r, b', hb', hedit', htold⟩ := hedit.edit hint
  have hcont : b'.contents = e.apply b.contents := hedit'.holds.contents
  have htotal : b.buf.totalSize = b.contents.length := hedit.holds.total
  have hreg : b.log.client.registered = 1 ∨
      ∀ op offset size, ebPlistCallback b.log.client.state op offset size = b.log.client.state := by
    by_cases hnil : b.propertyList = []
    · right
      intro op offset size
      rw [show b.log.client.state = [] from hnil, ebPlistCallback_nil]
    · exact .inl (h.there hnil)
  obtain ⟨hstate, hregistered, hwatches⟩ := htold.follows h.watches hreg
  rw [htotal] at hfit
  obtain ⟨his, hints⟩ := h.is.changes h.ints hedit.int (e.changes_ok hedit.int hint) hfit
  refine ⟨b', by rw [EditBuffer.propertyCall, hb']; rfl, ⟨s, by rw [hcont]; exact hedit'⟩,
    hwatches, ?_, ?_, ?_, ?_⟩
  · rw [Tape.call, h.is.size, hcont, EditBuffer.propertyList, hstate]
    exact his
  · rw [EditBuffer.propertyList, hstate]
    exact hints
  · rw [hregistered]
    exact h.once
  · intro hne
    rw [hregistered]
    refine h.there fun hnil => hne ?_
    rw [EditBuffer.propertyList, hstate, show b.log.client.state = [] from hnil, follow_ebPlistCallback_nil]

variable {b : EditBuffer (UndoLog (Watched (List QEProperty) ρ))}

theorem EditBuffer.Noted.setProperties {t' : Tape} (h : b.Noted t) {w : Watched (List QEProperty) ρ}
    (his : t'.Is b.contents w.state) (hints : ∀ p ∈ w.state, IsInt32 p.offset) (honce : w.registered ≤ 1)
    (hthere : w.state ≠ [] → w.registered = 1) : (b.setProperties w).Noted t' := by
  obtain ⟨s, hedit⟩ := h.editable
  exact ⟨⟨s, hedit.setClient w⟩, h.watches, his, hints, honce, hthere⟩

theorem EditBuffer.Noted.addProperty (h : b.Noted t) {offset type : Int} {data : List UInt8}
    (hok : (PropertyCall.addProperty offset type data).Ok b) :
    (b.setProperties (b.log.client.ebAddProperty ⟨offset, type, data⟩)).Noted
      (t.call (.addProperty offset type data)) := by
  obtain ⟨hoff, hempty⟩ := hok
  have hregistered : (b.log.client.ebAddProperty ⟨offset, type, data⟩).registered = 1 := by
    rw [Watched.ebAddProperty_registered]
    split
    · rename_i hnil
      rw [hempty hnil]
    · rename_i hne
      exact h.there hne
  refine h.setProperties (h.is.addProperty ⟨offset, type, data⟩ Watched.ebAddProperty_state) ?_
    (Nat.le_of_eq hregistered) fun _ => hregistered
  intro p hp
  have hspec := addPropertyLoop_spec ⟨offset, type, data⟩ h.is.sorted
  rw [Watched.ebAddProperty_state] at hp
  cases hloop : addPropertyLoop ⟨offset, type, data⟩ b.log.client.state with
  | none =>
    rw [hloop] at hp
    exact h.ints p hp
  | some ps =>
    rw [EditBuffer.propertyList, hloop] at hspec
    rw [hloop] at hp
    rcases (hspec.2.2.1 p).mp hp with rfl | hp
    · exact hoff
    · exact h.ints p hp

theorem EditBuffer.Noted.deleteProperties (h : b.Noted t) (offset offset2 : Int) :
    (b.setProperties (b.log.client.ebDeleteProperties offset offset2)).Noted
      (t.call (.deleteProperties offset offset2)) := by
  have hstate : (b.log.client.ebDeleteProperties offset offset2).state
      = deletePropertiesLoop offset offset2 b.propertyList := Watched.ebDeleteProperties_state
  have hregistered := b.log.client.ebDeleteProperties_registered offset offset2
  have honce := h.once
  refine h.setProperties (by rw [hstate]; exact h.is.deleteProperties offset offset2) ?_ ?_ ?_
  · intro p hp
    rw [hstate, deletePropertiesLoop_eq offset offset2 h.is.sorted] at hp
    exact h.ints p (List.mem_filter.mp hp).1
  · split at hregistered <;> omega
  · intro hne
    have hbefore : b.propertyList ≠ [] := by
      intro hnil
      rw [hstate, hnil] at hne
      exact hne rfl
    rw [hstate] at hne
    rw [if_neg (fun hemptied => hne hemptied.2)] at hregistered
    rw [hregistered]
    exact h.there hbefore

/-- **One call.** -/
theorem EditBuffer.Noted.call (h : b.Noted t) {c : PropertyCall} (hok : c.Ok b) :
    ∃ b', b.propertyCall c = some b' ∧ b'.Noted (t.call c) := by
  cases c with
  | edit e => exact h.edit hok
  | addProperty offset type data => exact ⟨_, rfl, h.addProperty hok⟩
  | deleteProperties offset offset2 => exact ⟨_, rfl, h.deleteProperties offset offset2⟩

/-- A buffer that has just been loaded and has no properties yet; other callbacks may be
registered. -/
structure EditBuffer.Unnoted (b : EditBuffer (UndoLog (Watched (List QEProperty) ρ)))
    (text : List UInt8) : Prop where
  fresh : b.Fresh text
  watches : b.log.Watches ebPlistCallback
  none : b.propertyList = []
  free : b.log.client.registered = 0

/-- **Properties stay where they were put.** In a run whose calls all meet the condition, the
buffer holds at every point the bytes of the tape, and the list of properties, sorted by offset,
gives at every place what is attached to the cell there. -/
theorem properties_anchored {b : EditBuffer (UndoLog (Watched (List QEProperty) ρ))}
    {text : List UInt8} (hb : b.Unnoted text) {calls : List PropertyCall}
    (hok : RunMeets PropertyCall.Ok EditBuffer.propertyCall b calls) :
    ∃ b', run EditBuffer.propertyCall b calls = some b' ∧
      (calls.foldl Tape.call (.ofText text)).Is b'.contents b'.propertyList := by
  have hedit := hb.fresh.editable PageInv.trivial
  have hcont : b.contents = text := hedit.holds.contents
  have hstart : b.Noted (.ofText text) := by
    refine ⟨⟨_, by rw [hcont]; exact hedit⟩, hb.watches, ?_, ?_, ?_, ?_⟩
    · rw [hcont, hb.none]
      exact ⟨rfl, fun _ => rfl, fun _ => rfl, List.Pairwise.nil⟩
    · rw [hb.none]
      intro p hp
      exact absurd hp (by simp)
    · rw [hb.free]
      exact Nat.zero_le 1
    · intro hne
      exact absurd hb.none hne
  have hstep : ∀ (b : EditBuffer (UndoLog (Watched (List QEProperty) ρ))) (t : Tape)
      (c : PropertyCall), b.Noted t → c.Ok b →
      ∃ b', b.propertyCall c = some b' ∧ b'.Noted (t.call c) := fun b t c h hok => h.call hok
  obtain ⟨b', hrun, hnoted⟩ := run_refines hstep calls b (.ofText text) hstart hok
  exact ⟨b', hrun, hnoted.is⟩

end Runs

/-! ## Two runs -/

instance decidablePropertiesFit (ps : List QEProperty) (c : Change) : Decidable (PropertiesFit ps c) :=
  inferInstanceAs (Decidable (c.op = .insert →
    ∀ p ∈ ps, (c.offset : Int) ≤ p.offset → p.offset + c.size ≤ intMax))

instance PropertyCall.decidableOk {ρ : Type}
    (b : EditBuffer (UndoLog (Watched (List QEProperty) ρ))) :
    ∀ c : PropertyCall, Decidable (c.Ok b)
  | .edit e =>
      inferInstanceAs (Decidable (((e.apply b.contents).length : Int) ≤ intMax ∧ Meets _ _ _ _))
  | .addProperty offset _ _ =>
      inferInstanceAs (Decidable (IsInt32 offset ∧ (b.propertyList = [] → b.log.client.registered = 0)))
  | .deleteProperties _ _ => isTrue True.intro

/-- An empty buffer, with one other callback that counts the changes. -/
def EditBuffer.unnoted : EditBuffer (UndoLog (Watched (List QEProperty) Nat)) :=
  (EditState.new { firstCallback := [.other fun n _ _ _ => n + 1], state := [], rest := 0 }
    [Watched.callCallbacks ebPlistCallback]).b

theorem EditBuffer.unnoted_unnoted : EditBuffer.unnoted.Unnoted [] :=
  ⟨EditBuffer.Empty.fresh ⟨rfl, rfl, rfl⟩, rfl, rfl, rfl⟩

/-- Properties are added, one of them twice, moved by edits on either side, removed with their
bytes and removed by hand. -/
def PropertyCall.moves : List PropertyCall :=
  [.edit (.insert 0 (.ofList [97, 98, 99, 100])), .addProperty 1 3 [65], .addProperty 3 3 [66],
    .addProperty 1 3 [65], .edit (.insert 1 (.ofList [120, 121])), .edit (.delete 0 1),
    .edit (.delete 2 1), .deleteProperties 3 9, .addProperty 0 3 [67]]

theorem properties_anchored_moves :
    ∃ b', run EditBuffer.propertyCall .unnoted PropertyCall.moves = some b' ∧
      (PropertyCall.moves.foldl Tape.call (.ofText [])).Is b'.contents b'.propertyList :=
  properties_anchored EditBuffer.unnoted_unnoted (by decide +kernel)

/-- A property is added, deleted with its byte, and added again, and then something is inserted. -/
def PropertyCall.readded : List PropertyCall :=
  [.edit (.insert 0 (.ofList [97, 98, 99, 100])), .addProperty 1 3 [65], .edit (.delete 0 2),
    .addProperty 1 3 [65], .edit (.insert 0 (.ofList [120]))]

/-- The insertion of one byte moves the property by two. -/
theorem properties_moved_twice :
    ¬∃ b', run EditBuffer.propertyCall .unnoted PropertyCall.readded = some b' ∧
      (PropertyCall.readded.foldl Tape.call (.ofText [])).Is b'.contents b'.propertyList := by
  rintro ⟨b', hrun, his⟩
  have hlist : (run EditBuffer.propertyCall .unnoted PropertyCall.readded).map
      EditBuffer.propertyList = some [⟨3, 3, [65]⟩] := by
    decide +kernel
  rw [hrun] at hlist
  have htags := his.tags 2
  rw [Option.some.inj hlist] at htags
  exact absurd htags (by decide)

end Qemacs
