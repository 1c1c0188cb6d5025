import Qemacs.Util.Key

/-!
# Leaving the editor

`do_exit_qemacs` goes through the buffers and asks of each that is modified whether to save it. The
answers change what is done with those that come later, and `is->modified` remembers that some
buffer was left modified, so that the user is asked once more in the end.

It remembers those that the user left, and not those that could not be saved: `quit_key` and
`quit_examine_buffers` ignore what `eb_save_buffer` returns. So changes are dropped without a
question exactly if the answers ask for all modified buffers to be saved and one of the saves
fails (`quit_safe_iff`).
-/

namespace Qemacs

/-! ## The dialogue -/

def keyDelete : Nat := keyEsc1 3

/-- `is->state`. -/
inductive QSState
  | ask
  | nosave
  | save
  deriving DecidableEq, Repr

/-- What the dialogue reads of an `EditBuffer`, and whether `eb_save_buffer` succeeds on it. -/
structure QuitBuffer where
  system : Bool
  filename : List UInt8
  modified : Bool
  saves : Bool
  deriving DecidableEq, Repr

/-- `!(b->flags & BF_SYSTEM) && b->filename[0] != '\0' && b->modified`. -/
def QuitBuffer.isUnsaved (b : QuitBuffer) : Bool := !b.system && !b.filename.isEmpty && b.modified

/-- `eb_save_buffer`, as far as `b->modified` goes. -/
def ebSaveBuffer (b : QuitBuffer) : QuitBuffer := if b.saves then { b with modified := false } else b

/-- `QuitState`: `is->b` is the first of `rest`, and NULL behind the last buffer. -/
structure QuitState where
  passed : List QuitBuffer
  rest : List QuitBuffer
  state : QSState
  modified : Bool
  deriving DecidableEq, Repr

/-- Where the dialogue is. -/
inductive Quit
  /-- Keys are grabbed. -/
  | asking (is : QuitState)
  /-- The minibuffer asks: Modified buffers exist; exit anyway? -/
  | confirming (buffers : List QuitBuffer)
  /-- The editor goes on. -/
  | cancelled (buffers : List QuitBuffer)
  /-- `url_exit` has been called, after a yes or not. -/
  | exited (buffers : List QuitBuffer) (confirmed : Bool)
  deriving DecidableEq, Repr

def quitExamineBuffers (state : QSState) :
    List QuitBuffer → List QuitBuffer → Bool → Quit
  | passed, [], modified => if modified then .confirming passed else .exited passed false
  | passed, b :: rest, modified =>
      if b.isUnsaved then
        match state with
        | .ask => .asking ⟨passed, b :: rest, state, modified⟩
        | .nosave => quitExamineBuffers state (passed ++ [b]) rest true
        | .save => quitExamineBuffers state (passed ++ [ebSaveBuffer b]) rest modified
      else quitExamineBuffers state (passed ++ [b]) rest modified

def quitKey (is : QuitState) (ch : Nat) : Quit :=
  match is.rest with
  | [] => .asking is
  | b :: rest =>
      if ch = 'y'.toNat ∨ ch = ' '.toNat then
        quitExamineBuffers is.state (is.passed ++ [ebSaveBuffer b]) rest is.modified
      else if ch = 'n'.toNat ∨ ch = keyDelete then
        quitExamineBuffers is.state (is.passed ++ [b]) rest true
      else if ch = 'q'.toNat ∨ ch = keyCtrl 'm'.toNat ∨ ch = keyCtrl 'j'.toNat then
        quitExamineBuffers .nosave (is.passed ++ [b]) rest true
      else if ch = '!'.toNat then
        quitExamineBuffers .save (is.passed ++ [ebSaveBuffer b]) rest is.modified
      else if ch = '.'.toNat then
        quitExamineBuffers .nosave (is.passed ++ [ebSaveBuffer b]) rest is.modified
      else if ch = keyCtrl 'g'.toNat then .cancelled (is.passed ++ is.rest)
      else .asking is

def quitConfirmCb (buffers : List QuitBuffer) (reply : Option (List UInt8)) : Quit :=
  match reply with
  | none => .cancelled buffers
  | some reply =>
      if reply.head? = some (ascii 'y') ∨ reply.head? = some (ascii 'Y') then .exited buffers true
      else .cancelled buffers

def doExitQemacs (buffers : List QuitBuffer) (argval : Option Int) : Quit :=
  match argval with
  | some _ => .exited buffers false
  | none => quitExamineBuffers .ask [] buffers false

/-- A key goes to `quit_key` as long as keys are grabbed. -/
def Quit.key (q : Quit) (ch : Nat) : Quit :=
  match q with
  | .asking is => quitKey is ch
  | q => q

/-- And the reply to `quit_confirm_cb`, if the minibuffer has asked. -/
def Quit.reply (q : Quit) (reply : Option (List UInt8)) : Quit :=
  match q with
  | .confirming buffers => quitConfirmCb buffers reply
  | q => q

/-- Nothing is dropped: if the editor has been left, all has been saved or the user has said yes. -/
def Quit.Safe : Quit → Prop
  | .exited buffers confirmed => (∀ b ∈ buffers, b.isUnsaved = false) ∨ confirmed = true
  | _ => True

/-- The answers that leave a buffer modified. -/
def leavesBuffer (ch : Nat) : Prop :=
  ch = 'n'.toNat ∨ ch = keyDelete ∨ ch = 'q'.toNat ∨ ch = keyCtrl 'm'.toNat ∨ ch = keyCtrl 'j'.toNat

instance decidableLeavesBuffer (ch : Nat) : Decidable (leavesBuffer ch) :=
  inferInstanceAs (Decidable (_ ∨ _))

/-- The answers ask for all of `n` buffers to be saved: a yes for each, or `!` at one of them, or `.`
at the last. Keys that are no answer do not count. -/
def SavesAll : Nat → List Nat → Prop
  | 0, _ => True
  | _ + 1, [] => False
  | n + 1, ch :: keys =>
      if ch = 'y'.toNat ∨ ch = ' '.toNat then SavesAll n keys
      else if leavesBuffer ch then False
      else if ch = '!'.toNat then True
      else if ch = '.'.toNat then n = 0
      else if ch = keyCtrl 'g'.toNat then False
      else SavesAll (n + 1) keys

/-! ## Going through the buffers -/

/-- The buffers that would be asked for. -/
def unsaved (buffers : List QuitBuffer) : List QuitBuffer := buffers.filter QuitBuffer.isUnsaved

theorem isUnsaved_ebSaveBuffer {b : QuitBuffer} (h : b.isUnsaved = true) :
    (ebSaveBuffer b).isUnsaved = !b.saves := by
  unfold ebSaveBuffer
  cases hs : b.saves with
  | true => simp [QuitBuffer.isUnsaved]
  | false => simpa using h

theorem examine_pass (state : QSState) : ∀ {pre : List QuitBuffer}, (∀ b ∈ pre, b.isUnsaved = false) →
    ∀ (rest passed : List QuitBuffer) (modified : Bool),
      quitExamineBuffers state passed (pre ++ rest) modified
        = quitExamineBuffers state (passed ++ pre) rest modified := by
  intro pre
  induction pre with
  | nil => intro _ rest passed modified; rw [List.append_nil]; rfl
  | cons b pre ih =>
    intro hclean rest passed modified
    obtain ⟨hb, hpre⟩ := List.forall_mem_cons.mp hclean
    simp only [List.cons_append, quitExamineBuffers]
    rw [if_neg (by rw [hb]; decide), ih hpre, List.append_assoc]
    rfl

theorem exists_next_unsaved (rest : List QuitBuffer) :
    (∀ b ∈ rest, b.isUnsaved = false) ∨ ∃ pre b post, rest = pre ++ b :: post ∧
      (∀ b ∈ pre, b.isUnsaved = false) ∧ b.isUnsaved = true := by
  induction rest with
  | nil => exact Or.inl (by simp)
  | cons b rest ih =>
    by_cases hb : b.isUnsaved = true
    · exact Or.inr ⟨[], b, rest, rfl, by simp, hb⟩
    · rcases ih with hall | ⟨pre, c, post, rfl, hpre, hc⟩
      · exact Or.inl (List.forall_mem_cons.mpr ⟨by simpa using hb, hall⟩)
      · exact Or.inr ⟨b :: pre, c, post, rfl, List.forall_mem_cons.mpr ⟨by simpa using hb, hpre⟩, hc⟩

theorem unsaved_length (pre : List QuitBuffer) {b : QuitBuffer} (post : List QuitBuffer)
    (hpre : ∀ b ∈ pre, b.isUnsaved = false) (hb : b.isUnsaved = true) :
    (unsaved (pre ++ b :: post)).length = (unsaved post).length + 1 := by
  have hnone : pre.filter QuitBuffer.isUnsaved = [] :=
    List.filter_eq_nil_iff.mpr fun b hb => by rw [hpre b hb]; decide
  rw [unsaved, List.filter_append, hnone, List.nil_append, List.filter_cons_of_pos hb, unsaved,
    List.length_cons]

variable {rest : List QuitBuffer}

theorem unsaved_clean (h : ∀ b ∈ rest, b.isUnsaved = false) : (unsaved rest).length = 0 := by
  rw [unsaved, List.filter_eq_nil_iff.mpr fun b hb => by rw [h b hb]; decide]
  rfl

/-! ## What is remembered -/

/-- The editor is not left without a yes. -/
def Quit.Remembers : Quit → Prop
  | .asking is => is.modified = true
  | .exited _ confirmed => confirmed = true
  | _ => True

theorem examine_remembers {state : QSState} : ∀ (rest passed : List QuitBuffer),
    (quitExamineBuffers state passed rest true).Remembers := by
  intro rest
  induction rest with
  | nil => exact fun passed => True.intro
  | cons b rest ih =>
    intro passed
    simp only [quitExamineBuffers]
    split
    · cases state with
      | ask => rfl
      | nosave => exact ih _
      | save => exact ih _
    · exact ih _

theorem Quit.Remembers.key {q : Quit} (h : q.Remembers) (ch : Nat) : (q.key ch).Remembers := by
  cases q with
  | asking is =>
    simp only [Quit.Remembers] at h
    simp only [Quit.key]
    unfold quitKey
    split
    · exact h
    · rw [h]
      split
      · exact examine_remembers _ _
      split
      · exact examine_remembers _ _
      split
      · exact examine_remembers _ _
      split
      · exact examine_remembers _ _
      split
      · exact examine_remembers _ _
      split
      · exact True.intro
      · exact h
  | confirming buffers => exact h
  | cancelled buffers => exact h
  | exited buffers confirmed => exact h

theorem Quit.Remembers.keys {q : Quit} (h : q.Remembers) (keys : List Nat) :
    (keys.foldl Quit.key q).Remembers := by
  induction keys generalizing q with
  | nil => exact h
  | cons ch keys ih => exact ih (h.key ch)

theorem Quit.Remembers.safe {q : Quit} (h : q.Remembers) (reply : Option (List UInt8)) :
    (q.reply reply).Safe := by
  cases q with
  | asking is => exact True.intro
  | confirming buffers =>
    simp only [Quit.reply, quitConfirmCb]
    split
    · exact True.intro
    · split
      · exact Or.inr rfl
      · exact True.intro
  | cancelled buffers => exact True.intro
  | exited buffers confirmed => exact Or.inr h

/-! ## What is dropped -/

/-- A buffer that has not been saved, or one still to come that cannot be. -/
def Failing (passed rest : List QuitBuffer) : Prop :=
  (∃ b ∈ passed, b.isUnsaved = true) ∨ ∃ b ∈ rest, b.isUnsaved = true ∧ b.saves = false

theorem exited_safe_iff (buffers : List QuitBuffer) (keys : List Nat) (reply : Option (List UInt8)) :
    ((keys.foldl Quit.key (.exited buffers false)).reply reply).Safe ↔ ¬∃ b ∈ buffers, b.isUnsaved = true := by
  have hstay : keys.foldl Quit.key (.exited buffers false) = .exited buffers false := by
    induction keys with
    | nil => rfl
    | cons ch keys ih => exact ih
  rw [hstay]
  simp only [Quit.reply, Quit.Safe, Bool.false_eq_true, or_false, not_exists, not_and, Bool.not_eq_true]

theorem examine_save : ∀ (rest passed : List QuitBuffer),
    quitExamineBuffers .save passed rest false
      = .exited (passed ++ rest.map fun b => if b.isUnsaved then ebSaveBuffer b else b) false := by
  intro rest
  induction rest with
  | nil => intro passed; rw [List.map_nil, List.append_nil]; rfl
  | cons b rest ih =>
    intro passed
    simp only [quitExamineBuffers, List.map_cons]
    split
    · rw [ih, List.append_assoc]
      rfl
    · rw [ih, List.append_assoc]
      rfl

theorem failing_pass {pre : List QuitBuffer} (hpre : ∀ b ∈ pre, b.isUnsaved = false)
    (passed rest : List QuitBuffer) : Failing passed (pre ++ rest) ↔ Failing (passed ++ pre) rest := by
  have hnone : ∀ b ∈ pre, ¬b.isUnsaved = true := fun b hb => by rw [hpre b hb]; decide
  simp only [Failing, List.mem_append]
  constructor
  · rintro (⟨b, hb, hu⟩ | ⟨b, hb | hb, hu⟩)
    · exact Or.inl ⟨b, Or.inl hb, hu⟩
    · exact absurd hu.1 (hnone b hb)
    · exact Or.inr ⟨b, hb, hu⟩
  · rintro (⟨b, hb | hb, hu⟩ | ⟨b, hb, hu⟩)
    · exact Or.inl ⟨b, hb, hu⟩
    · exact absurd hu (hnone b hb)
    · exact Or.inr ⟨b, Or.inr hb, hu⟩

theorem failing_save {b : QuitBuffer} (hb : b.isUnsaved = true) (passed rest : List QuitBuffer) :
    Failing (passed ++ [ebSaveBuffer b]) rest ↔ Failing passed (b :: rest) := by
  have hsaved := isUnsaved_ebSaveBuffer hb
  constructor
  · rintro (⟨c, hc, hu⟩ | ⟨c, hc, hu⟩)
    · rcases List.mem_append.mp hc with hc | hc
      · exact Or.inl ⟨c, hc, hu⟩
      · rw [List.mem_singleton.mp hc, hsaved] at hu
        exact Or.inr ⟨b, List.mem_cons_self, hb, by simpa using hu⟩
    · exact Or.inr ⟨c, List.mem_cons_of_mem _ hc, hu⟩
  · rintro (⟨c, hc, hu⟩ | ⟨c, hc, hu⟩)
    · exact Or.inl ⟨c, List.mem_append_left _ hc, hu⟩
    · rcases List.mem_cons.mp hc with rfl | hc
      · exact Or.inl ⟨_, List.mem_append_right _ (List.mem_singleton.mpr rfl), by rw [hsaved, hu.2]; rfl⟩
      · exact Or.inr ⟨c, hc, hu⟩

theorem failing_clean (hrest : ∀ b ∈ rest, b.isUnsaved = false) (passed : List QuitBuffer)
    : Failing passed rest ↔ ∃ b ∈ passed ++ rest, b.isUnsaved = true := by
  have hpass := failing_pass hrest passed []
  rw [List.append_nil] at hpass
  rw [hpass, Failing]
  exact or_iff_left fun ⟨b, hb, _⟩ => List.not_mem_nil hb

theorem failing_saveAll (passed rest : List QuitBuffer) :
    Failing passed rest ↔ ∃ b ∈ passed ++ rest.map fun b => if b.isUnsaved then ebSaveBuffer b else b,
      b.isUnsaved = true := by
  simp only [Failing, List.mem_append, List.mem_map]
  constructor
  · rintro (⟨b, hb, hu⟩ | ⟨b, hb, hu, hs⟩)
    · exact ⟨b, Or.inl hb, hu⟩
    · exact ⟨_, Or.inr ⟨b, hb, if_pos hu⟩, by rw [isUnsaved_ebSaveBuffer hu, hs]; rfl⟩
  · rintro ⟨b, hb | ⟨c, hc, rfl⟩, hu⟩
    · exact Or.inl ⟨b, hb, hu⟩
    · by_cases hcu : c.isUnsaved = true
      · rw [if_pos hcu, isUnsaved_ebSaveBuffer hcu] at hu
        exact Or.inr ⟨c, hc, hcu, by simpa using hu⟩
      · rw [if_neg hcu] at hu
        exact absurd hu hcu

/-- When the rest is not to be saved, some buffer is left or there is none. -/
theorem examine_nosave (rest passed : List QuitBuffer) :
    (unsaved rest).length = 0 ∧ (∀ b ∈ rest, b.isUnsaved = false) ∧
        quitExamineBuffers .nosave passed rest false = .exited (passed ++ rest) false ∨
      (unsaved rest).length ≠ 0 ∧ (quitExamineBuffers .nosave passed rest false).Remembers := by
  rcases exists_next_unsaved rest with hall | ⟨pre, b, post, rfl, hpre, hb⟩
  · have hpass := examine_pass .nosave hall [] passed false
    rw [List.append_nil] at hpass
    exact Or.inl ⟨unsaved_clean hall, hall, hpass⟩
  · refine Or.inr ⟨by rw [unsaved_length pre post hpre hb]; exact Nat.succ_ne_zero _, ?_⟩
    rw [examine_pass .nosave hpre]
    simp only [quitExamineBuffers]
    rw [if_pos hb]
    exact examine_remembers _ _

theorem examined_safe_iff (reply : Option (List UInt8)) (keys : List Nat) (hall : ∀ b ∈ rest, b.isUnsaved = false)
    (passed : List QuitBuffer) :
    ((keys.foldl Quit.key (quitExamineBuffers .ask passed rest false)).reply reply).Safe
      ↔ ¬Failing passed rest := by
  have hpass := examine_pass .ask hall [] passed false
  rw [List.append_nil] at hpass
  rw [hpass, failing_clean hall]
  exact exited_safe_iff _ keys reply

/-- **What is dropped, from any point of the dialogue on**: by induction on the keys. -/
theorem asking_safe_iff (reply : Option (List UInt8)) : ∀ (keys : List Nat)
    (passed rest : List QuitBuffer),
    ((keys.foldl Quit.key (quitExamineBuffers .ask passed rest false)).reply reply).Safe
      ↔ ¬(SavesAll (unsaved rest).length keys ∧ Failing passed rest) := by
  intro keys
  induction keys with
  | nil =>
    intro passed rest
    rcases exists_next_unsaved rest with hall | ⟨pre, b, post, rfl, hpre, hb⟩
    · rw [unsaved_clean hall, SavesAll, true_and]
      exact examined_safe_iff reply [] hall passed
    · rw [examine_pass .ask hpre, unsaved_length pre post hpre hb]
      simp only [quitExamineBuffers, if_pos hb, SavesAll, false_and, not_false_eq_true, iff_true]
      exact True.intro
  | cons ch keys ih =>
    intro passed rest
    rcases exists_next_unsaved rest with hall | ⟨pre, b, post, rfl, hpre, hb⟩
    · rw [unsaved_clean hall, SavesAll, true_and]
      exact examined_safe_iff reply (ch :: keys) hall passed
    · rw [examine_pass .ask hpre, unsaved_length pre post hpre hb, failing_pass hpre,
        ← failing_save hb, List.foldl_cons]
      have hasking : quitExamineBuffers .ask (passed ++ pre) (b :: post) false
          = .asking ⟨passed ++ pre, b :: post, .ask, false⟩ := by
        simp only [quitExamineBuffers, if_pos hb]
      have hremembers : ∀ {q : Quit}, q.Remembers → ((keys.foldl Quit.key q).reply reply).Safe :=
        fun hq => (hq.keys keys).safe reply
      rw [hasking]
      simp only [Quit.key, quitKey, SavesAll]
      by_cases hyes : ch = 'y'.toNat ∨ ch = ' '.toNat
      · rw [if_pos hyes, if_pos hyes]
        exact ih _ _
      rw [if_neg hyes, if_neg hyes]
      by_cases hleaves : leavesBuffer ch
      · rw [if_pos hleaves, false_and, not_false_eq_true, iff_true]
        by_cases hno : ch = 'n'.toNat ∨ ch = keyDelete
        · rw [if_pos hno]
          exact hremembers (examine_remembers _ _)
        · have hquit : ch = 'q'.toNat ∨ ch = keyCtrl 'm'.toNat ∨ ch = keyCtrl 'j'.toNat := by
            rcases hleaves with h | h | h
            · exact absurd (Or.inl h) hno
            · exact absurd (Or.inr h) hno
            · exact h
          rw [if_neg hno, if_pos hquit]
          exact hremembers (examine_remembers _ _)
      rw [if_neg hleaves, if_neg fun h => hleaves (h.elim Or.inl fun h => Or.inr (Or.inl h)),
        if_neg fun h => hleaves (Or.inr (Or.inr h))]
      by_cases hall : ch = '!'.toNat
      · rw [if_pos hall, if_pos hall, examine_save, failing_saveAll, true_and]
        exact exited_safe_iff _ _ reply
      rw [if_neg hall, if_neg hall]
      by_cases hdot : ch = '.'.toNat
      · rw [if_pos hdot, if_pos hdot]
        rcases examine_nosave post (passed ++ pre ++ [ebSaveBuffer b]) with
          ⟨hlen, hclean, hexit⟩ | ⟨hlen, hrem⟩
        · rw [hexit, failing_clean hclean, eq_true hlen, true_and]
          exact exited_safe_iff _ _ reply
        · rw [eq_false hlen, false_and, not_false_eq_true, iff_true]
          exact hremembers hrem
      rw [if_neg hdot, if_neg hdot]
      by_cases hcancel : ch = keyCtrl 'g'.toNat
      · rw [if_pos hcancel, if_pos hcancel, false_and, not_false_eq_true, iff_true]
        exact hremembers True.intro
      · -- not an answer
        have hsame := ih (passed ++ pre) (b :: post)
        rw [hasking, ← List.nil_append (b :: post), unsaved_length [] post (by simp) hb, List.nil_append,
          ← failing_save hb] at hsame
        rw [if_neg hcancel, if_neg hcancel]
        exact hsame

/-- **When nothing is dropped**: unless the answers ask for all modified buffers to be saved and one
of the saves fails, `url_exit` is called only if all is saved or the user has said yes. -/
theorem quit_safe_iff (buffers : List QuitBuffer) (keys : List Nat) (reply : Option (List UInt8)) :
    ((keys.foldl Quit.key (doExitQemacs buffers none)).reply reply).Safe
      ↔ ¬(SavesAll (unsaved buffers).length keys ∧ ∃ b ∈ buffers, b.isUnsaved = true ∧ b.saves = false) := by
  have hstart : Failing [] buffers ↔ ∃ b ∈ buffers, b.isUnsaved = true ∧ b.saves = false :=
    or_iff_right fun ⟨b, hb, _⟩ => List.not_mem_nil hb
  rw [← hstart]
  exact asking_safe_iff reply keys [] buffers

/-- A save that fails, on a yes. -/
theorem quit_drops :
    let b : QuitBuffer := ⟨false, asciiString "notes", true, false⟩
    (['y'.toNat].foldl Quit.key (doExitQemacs [b] none)).reply none = .exited [b] false ∧
      b.isUnsaved = true ∧
      ¬((['y'.toNat].foldl Quit.key (doExitQemacs [b] none)).reply none).Safe := by
  refine ⟨by decide, by decide, ?_⟩
  rintro (hsaved | hyes)
  · exact absurd (hsaved _ (List.mem_singleton.mpr rfl)) (by decide)
  · exact Bool.false_ne_true hyes

end Qemacs
