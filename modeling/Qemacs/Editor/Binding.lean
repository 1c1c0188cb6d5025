import Mathlib.Data.List.Basic

/-!
# Key bindings

A mode keeps its bindings in a list, and `qe_find_binding` takes the first that fits. A new
binding is not put at the head: `qe_register_binding` first steps over the bindings to the same
command that the list begins with, so that the list is not in the order of registration.

What the list means is for each key sequence a stack of commands, those of its bindings to exactly
that sequence (`stackOf`). The bindings stepped over are all to the command that is registered, so
on the stack the new one may as well be on top of them (`stackOf_insert`); and an unregistration
takes off the first binding, the top.
-/

namespace Qemacs

/-- `KeyDef`. `nb_keys` is the length of `keys`; a command is the address of its definition. -/
structure KeyDef (δ : Type) where
  cmd : δ
  keys : List UInt32
  deriving DecidableEq, Repr

section Binding

variable {δ : Type}

/-- The loop of `qe_register_binding`, and the two assignments after it. -/
def insertKeyDef [DecidableEq δ] (p : KeyDef δ) : List (KeyDef δ) → List (KeyDef δ)
  | [] => [p]
  | q :: next => if q.cmd = p.cmd then q :: insertKeyDef p next else p :: q :: next

/-- `qe_register_binding`: what it returns, and the list. -/
def qeRegisterBinding [DecidableEq δ] (d : Option δ) (keys : List UInt32)
    (first : List (KeyDef δ)) : Int × List (KeyDef δ) :=
  if keys = [] then (-2, first)
  else
    match d with
    | none => (-1, first)
    | some d => (0, insertKeyDef ⟨d, keys⟩ first)

/-- The loop of `qe_unregister_binding`. -/
def removeKeyDef (keys : List UInt32) : List (KeyDef δ) → Int × List (KeyDef δ)
  | [] => (0, [])
  | p :: next =>
      if p.keys.length = keys.length ∧ p.keys.take keys.length = keys then (1, next)
      else ((removeKeyDef keys next).1, p :: (removeKeyDef keys next).2)

def qeUnregisterBinding (keys : List UInt32) (first : List (KeyDef δ)) : Int × List (KeyDef δ) :=
  if keys = [] then (-2, first) else removeKeyDef keys first

def qeFindBinding (keys : List UInt32) : List (KeyDef δ) → Bool → Option (KeyDef δ)
  | [], _ => none
  | kd :: next, exact =>
      if keys.length ≤ kd.keys.length ∧ kd.keys.take keys.length = keys ∧
          (exact = false ∨ kd.keys.length = keys.length) then some kd
      else qeFindBinding keys next exact

/-- A call that changes the bindings of a mode. -/
inductive BindingCall (δ : Type)
  | register (d : Option δ) (keys : List UInt32)
  | unregister (keys : List UInt32)
  deriving Repr

/-- The list after a call. -/
def BindingCall.exec [DecidableEq δ] (first : List (KeyDef δ)) : BindingCall δ → List (KeyDef δ)
  | .register d keys => (qeRegisterBinding d keys first).2
  | .unregister keys => (qeUnregisterBinding keys first).2

/-! ## Stacks -/

/-- What a call means, where every key sequence has a stack of commands. A sequence without keys
cannot be bound, nor a sequence to no command. -/
def BindingCall.meaning (pile : List UInt32 → List δ) (call : BindingCall δ) : List UInt32 → List δ :=
  match call with
  | .register (some d) keys => fun k => if k = keys ∧ k ≠ [] then d :: pile k else pile k
  | .register none _ => pile
  | .unregister keys => fun k => if k = keys then (pile k).tail else pile k

/-- The stack of a key sequence, in a list of bindings. -/
def stackOf (first : List (KeyDef δ)) (keys : List UInt32) : List δ :=
  (first.filter fun kd => decide (kd.keys = keys)).map KeyDef.cmd

theorem stackOf_cons (p : KeyDef δ) (next : List (KeyDef δ)) (keys : List UInt32) :
    stackOf (p :: next) keys = if p.keys = keys then p.cmd :: stackOf next keys
      else stackOf next keys := by
  by_cases h : p.keys = keys
  · rw [if_pos h, stackOf, List.filter_cons_of_pos (by simpa using h), List.map_cons, stackOf]
  · rw [if_neg h, stackOf, List.filter_cons_of_neg (by simpa using h), stackOf]

theorem sameKeys_iff (k keys : List UInt32) :
    (k.length = keys.length ∧ k.take keys.length = keys) ↔ k = keys := by
  constructor
  · rintro ⟨hlen, htake⟩
    rwa [← hlen, List.take_length] at htake
  · rintro rfl
    exact ⟨rfl, List.take_length⟩

/-- **Where the list has the new binding does not matter**: those before it with the same keys
have the same command. -/
theorem stackOf_insert [DecidableEq δ] (p : KeyDef δ) (first : List (KeyDef δ)) (keys : List UInt32) :
    stackOf (insertKeyDef p first) keys = stackOf (p :: first) keys := by
  induction first with
  | nil => rfl
  | cons q next ih =>
    rw [insertKeyDef]
    by_cases hcmd : q.cmd = p.cmd
    · rw [if_pos hcmd, stackOf_cons q, ih]
      simp only [stackOf_cons]
      by_cases hp : p.keys = keys
      · by_cases hq : q.keys = keys
        · simp only [if_pos hp, if_pos hq, hcmd]
        · simp only [if_pos hp, if_neg hq]
      · simp only [if_neg hp]
    · rw [if_neg hcmd]

theorem stackOf_remove (keys k : List UInt32) (first : List (KeyDef δ)) :
    stackOf (removeKeyDef keys first).2 k = if k = keys then (stackOf first k).tail else stackOf first k := by
  induction first with
  | nil => by_cases hk : k = keys <;> simp [removeKeyDef, stackOf, hk]
  | cons p next ih =>
    rw [removeKeyDef]
    by_cases hp : p.keys = keys
    · rw [if_pos ((sameKeys_iff p.keys keys).mpr hp), stackOf_cons]
      by_cases hk : k = keys
      · rw [if_pos hk, if_pos (hp.trans hk.symm), List.tail_cons]
      · rw [if_neg hk, if_neg fun h => hk (h.symm.trans hp)]
    · rw [if_neg fun h => hp ((sameKeys_iff p.keys keys).mp h), stackOf_cons, ih, stackOf_cons]
      by_cases hk : k = keys
      · have hpk : ¬p.keys = k := fun h => hp (h.trans hk)
        simp only [if_pos hk, if_neg hpk]
      · simp only [if_neg hk]

theorem qeFindBinding_exact (keys : List UInt32) (first : List (KeyDef δ)) :
    (qeFindBinding keys first true).map KeyDef.cmd = (stackOf first keys).head? := by
  induction first with
  | nil => rfl
  | cons kd next ih =>
    rw [qeFindBinding, stackOf_cons]
    by_cases hkeys : kd.keys = keys
    · obtain ⟨hlen, htake⟩ := (sameKeys_iff kd.keys keys).mpr hkeys
      rw [if_pos ⟨Nat.le_of_eq hlen.symm, htake, .inr hlen⟩, if_pos hkeys]
      rfl
    · rw [if_neg hkeys, if_neg, ih]
      rintro ⟨-, htake, hexact⟩
      rcases hexact with h | hlen
      · exact absurd h (by decide)
      · exact hkeys ((sameKeys_iff kd.keys keys).mp ⟨hlen, htake⟩)

/-! ## Runs -/

/-- No binding has no keys. -/
def Bound (first : List (KeyDef δ)) : Prop := stackOf first [] = []

theorem BindingCall.exec_stackOf [DecidableEq δ] {first : List (KeyDef δ)}
    (hbound : Bound first) (call : BindingCall δ) :
    stackOf (call.exec first) = call.meaning (stackOf first) ∧ Bound (call.exec first) := by
  have hstep : stackOf (call.exec first) = call.meaning (stackOf first) := by
    funext k
    cases call with
    | register d keys =>
      simp only [BindingCall.exec, qeRegisterBinding]
      by_cases hkeys : keys = []
      · rw [if_pos hkeys]
        cases d with
        | none => rfl
        | some d =>
          simp only [BindingCall.meaning]
          rw [if_neg fun h => h.2 (h.1.trans hkeys)]
      · rw [if_neg hkeys]
        cases d with
        | none => rfl
        | some d =>
          simp only [BindingCall.meaning]
          rw [stackOf_insert, stackOf_cons]
          by_cases hk : k = keys
          · rw [if_pos hk.symm, if_pos ⟨hk, fun h => hkeys (hk.symm.trans h)⟩]
          · rw [if_neg (Ne.symm hk), if_neg fun h => hk h.1]
    | unregister keys =>
      simp only [BindingCall.exec, BindingCall.meaning, qeUnregisterBinding]
      by_cases hkeys : keys = []
      · rw [if_pos hkeys]
        by_cases hk : k = keys
        · rw [if_pos hk, hk, hkeys, hbound]
          rfl
        · rw [if_neg hk]
      · rw [if_neg hkeys, stackOf_remove]
  refine ⟨hstep, ?_⟩
  rw [Bound, hstep]
  cases call with
  | register d keys =>
    cases d with
    | none => exact hbound
    | some d => exact (if_neg fun h => h.2 rfl).trans hbound
  | unregister keys =>
    simp only [BindingCall.meaning, show stackOf first [] = [] from hbound, List.tail_nil, ite_self]

theorem run_stackOf [DecidableEq δ] (calls : List (BindingCall δ)) :
    ∀ {first : List (KeyDef δ)}, Bound first →
      stackOf (calls.foldl BindingCall.exec first) = calls.foldl BindingCall.meaning (stackOf first) := by
  induction calls with
  | nil => intro first _; rfl
  | cons call calls ih =>
    intro first hbound
    obtain ⟨hstep, hnext⟩ := call.exec_stackOf hbound
    rw [List.foldl_cons, List.foldl_cons, ih hnext, hstep]

/-- **A key sequence is bound to the last command registered for it and not unregistered since**,
whatever other commands and key sequences were registered in between. -/
theorem bindings_are_stacks [DecidableEq δ] (calls : List (BindingCall δ))
    (keys : List UInt32) :
    (qeFindBinding keys (calls.foldl BindingCall.exec []) true).map KeyDef.cmd
      = (calls.foldl BindingCall.meaning (fun _ => []) keys).head? := by
  have hempty : Bound ([] : List (KeyDef δ)) := rfl
  rw [qeFindBinding_exact, run_stackOf calls hempty]
  rfl

end Binding

/-- The second binding of the sequence 1 goes behind that of 2, and in front of the first. -/
example : [BindingCall.register (some 'a') [1], .register (some 'b') [1],
      .register (some 'b') [2], .register (some 'b') [1]].foldl BindingCall.exec []
    = [⟨'b', [1]⟩, ⟨'b', [2]⟩, ⟨'b', [1]⟩, ⟨'a', [1]⟩] := by decide

end Qemacs
