import Qemacs.Undo.Told
import Mathlib.Logic.Function.Iterate

/-!
# Registered callbacks

A buffer has a list of callbacks, `first_callback`, that `eb_addlog` runs on every change of the
text. A part of the editor that keeps data beside a text registers a callback when it starts and
takes it out when it is done; `eb_add_callback` does not look whether the callback is there
already, and `eb_free_callback` takes out one entry. So how often a change reaches the data is how
often the callback is in the list.

The list is looked at from the side of one such part, whose callback is the *watched* one. The
others are there, in any order, and work on data of their own.
-/

namespace Qemacs

open Lib

/-- An `EditBufferCallbackList` entry: the callback this is about, or another one. -/
inductive CallbackEntry (ρ : Type)
  | watched
  | other (callback : ρ → LogOperation → Nat → Nat → ρ)

def CallbackEntry.isWatched {ρ : Type} : CallbackEntry ρ → Bool
  | watched => true
  | other _ => false

/-- `first_callback`, the data of the watched callback, and the data of the others. -/
structure Watched (α ρ : Type) where
  firstCallback : List (CallbackEntry ρ) := []
  state : α
  rest : ρ

section Watched

variable {α ρ : Type}

/-- `eb_add_callback`: at the head of the list. -/
def Watched.ebAddCallback (w : Watched α ρ) : Watched α ρ :=
  { w with firstCallback := .watched :: w.firstCallback }

/-- `eb_free_callback`: the first entry that matches. -/
def Watched.ebFreeCallback (w : Watched α ρ) : Watched α ρ :=
  { w with firstCallback := w.firstCallback.eraseP CallbackEntry.isWatched }

/-- One entry is called. -/
def Watched.callEntry (mine : α → LogOperation → Nat → Nat → α) (op : LogOperation)
    (offset size : Nat) (w : Watched α ρ) : CallbackEntry ρ → Watched α ρ
  | .watched => { w with state := mine w.state op offset size }
  | .other callback => { w with rest := callback w.rest op offset size }

/-- "call each callback". -/
def Watched.callCallbacks (mine : α → LogOperation → Nat → Nat → α) (w : Watched α ρ)
    (op : LogOperation) (offset size : Nat) : Watched α ρ :=
  w.firstCallback.foldl (Watched.callEntry mine op offset size) w

/-- How often the watched callback is registered. -/
def Watched.registered (w : Watched α ρ) : Nat := w.firstCallback.countP CallbackEntry.isWatched

@[simp] theorem Watched.registered_add (w : Watched α ρ) : w.ebAddCallback.registered = w.registered + 1 :=
  List.countP_cons_of_pos rfl

@[simp] theorem Watched.registered_free (w : Watched α ρ) : w.ebFreeCallback.registered = w.registered - 1 := by
  unfold Watched.registered Watched.ebFreeCallback
  induction w.firstCallback with
  | nil => rfl
  | cons e es ih =>
    cases e with
    | watched =>
      rw [List.countP_cons_of_pos rfl]
      rfl
    | other callback =>
      rw [List.countP_cons_of_neg (by simp [CallbackEntry.isWatched])]
      simpa [List.eraseP_cons, CallbackEntry.isWatched] using ih

theorem Watched.foldl_callEntry (mine : α → LogOperation → Nat → Nat → α) (op : LogOperation)
    (offset size : Nat) : ∀ (es : List (CallbackEntry ρ)) (w : Watched α ρ),
    (es.foldl (Watched.callEntry mine op offset size) w).state
        = (fun a => mine a op offset size)^[es.countP CallbackEntry.isWatched] w.state ∧
      (es.foldl (Watched.callEntry mine op offset size) w).firstCallback = w.firstCallback := by
  intro es
  induction es with
  | nil => intro w; exact ⟨rfl, rfl⟩
  | cons e es ih =>
    intro w
    obtain ⟨hstate, hfirst⟩ := ih (w.callEntry mine op offset size e)
    cases e with
    | watched =>
      rw [List.countP_cons_of_pos rfl, Function.iterate_succ_apply]
      exact ⟨hstate, hfirst⟩
    | other callback =>
      rw [List.countP_cons_of_neg (by simp [CallbackEntry.isWatched])]
      exact ⟨hstate, hfirst⟩

theorem Watched.callCallbacks_state (mine : α → LogOperation → Nat → Nat → α) (w : Watched α ρ)
    (op : LogOperation) (offset size : Nat) :
    (w.callCallbacks mine op offset size).state = (fun a => mine a op offset size)^[w.registered] w.state :=
  (Watched.foldl_callEntry mine op offset size w.firstCallback w).1

@[simp] theorem Watched.callCallbacks_firstCallback (mine : α → LogOperation → Nat → Nat → α)
    (w : Watched α ρ) (op : LogOperation) (offset size : Nat) :
    (w.callCallbacks mine op offset size).firstCallback = w.firstCallback :=
  (Watched.foldl_callEntry mine op offset size w.firstCallback w).2

@[simp] theorem Watched.callCallbacks_registered (mine : α → LogOperation → Nat → Nat → α)
    (w : Watched α ρ) (op : LogOperation) (offset size : Nat) :
    (w.callCallbacks mine op offset size).registered = w.registered := by
  rw [Watched.registered, Watched.callCallbacks_firstCallback]
  rfl

/-- What the watched callback makes of a series of changes. -/
def follow (mine : α → LogOperation → Nat → Nat → α) (a : α) (cs : List Change) : α :=
  cs.foldl (fun a c => mine a c.op c.offset c.size) a

@[simp] theorem follow_cons (mine : α → LogOperation → Nat → Nat → α) (a : α) (c : Change)
    (cs : List Change) :
    follow mine a (c :: cs) = follow mine (mine a c.op c.offset c.size) cs := rfl

theorem Watched.foldl_callCallbacks (mine : α → LogOperation → Nat → Nat → α) (cs : List Change)
    (w : Watched α ρ)
    (h : w.registered = 1 ∨ ∀ op offset size, mine w.state op offset size = w.state) :
    (cs.foldl (fun w c => Watched.callCallbacks mine w c.op c.offset c.size) w).state
        = follow mine w.state cs ∧
      (cs.foldl (fun w c => Watched.callCallbacks mine w c.op c.offset c.size) w).firstCallback
        = w.firstCallback := by
  induction cs generalizing w with
  | nil => exact ⟨rfl, rfl⟩
  | cons c cs ih =>
    -- called once, or any number of times without an effect
    have hone : (w.callCallbacks mine c.op c.offset c.size).state = mine w.state c.op c.offset c.size := by
      rw [Watched.callCallbacks_state]
      rcases h with hreg | hidle
      · rw [hreg, Function.iterate_one]
      · rw [hidle]
        exact Function.iterate_fixed (hidle _ _ _) _
    have hnext : (w.callCallbacks mine c.op c.offset c.size).registered = 1 ∨
        ∀ op offset size, mine (w.callCallbacks mine c.op c.offset c.size).state op offset size
          = (w.callCallbacks mine c.op c.offset c.size).state := by
      rcases h with hreg | hidle
      · left
        rw [Watched.callCallbacks_registered, hreg]
      · right
        intro op offset size
        rw [hone, hidle, hidle]
    obtain ⟨hstate, hfirst⟩ := ih _ hnext
    rw [List.foldl_cons]
    refine ⟨?_, hfirst.trans (Watched.callCallbacks_firstCallback ..)⟩
    rw [hstate, hone, follow_cons]

/-- The callbacks of a buffer whose data this is. -/
def UndoLog.Watches (mine : α → LogOperation → Nat → Nat → α) (u : UndoLog (Watched α ρ)) : Prop :=
  u.callbacks = [Watched.callCallbacks mine]

/-- **The data follows the text.** A callback that is registered once, or that has nothing to do,
is run for each change that is told, in order. -/
theorem UndoLog.Told.follows {mine : α → LogOperation → Nat → Nat → α}
    {u u' : UndoLog (Watched α ρ)} {cs : List Change} (h : u.Told u' cs) (hw : u.Watches mine)
    (hreg : u.client.registered = 1 ∨ ∀ op offset size, mine u.client.state op offset size = u.client.state) :
    u'.client.state = follow mine u.client.state cs ∧
      u'.client.registered = u.client.registered ∧ u'.Watches mine := by
  have htell : u.tell = fun w c => Watched.callCallbacks mine w c.op c.offset c.size := by
    funext w c
    rw [UndoLog.tell, hw]
    rfl
  have hclient := h.client
  rw [htell] at hclient
  obtain ⟨hstate, hfirst⟩ := Watched.foldl_callCallbacks mine cs u.client hreg
  refine ⟨?_, ?_, h.callbacks.trans hw⟩
  · rw [hclient, hstate]
  · rw [Watched.registered, hclient, hfirst]
    rfl

end Watched

end Qemacs
