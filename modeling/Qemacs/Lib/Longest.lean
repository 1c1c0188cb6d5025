import Mathlib.Data.List.Nodup

/-!
# The longest word

A dictionary, and a text that is typed from left to right. The words that agree with the text as far
as both go are counted without a tree: of each word, only how far it agrees is looked at, and the
words that agree the furthest are counted. This decides whether a word may still be completed, and
finds the longest word that the text starts with otherwise.
-/

namespace Qemacs
namespace Lib

variable {α β : Type}

/-! ## Words that agree with a text -/

/-- `w` and `q` agree as far as both go. -/
def Agrees (w q : List α) : Prop := w <+: q ∨ q <+: w

instance decidableAgrees [DecidableEq α] (w q : List α) : Decidable (Agrees w q) :=
  inferInstanceAs (Decidable (_ ∨ _))

variable {q w : List α}

theorem agrees_cons_cons {a b : α} : Agrees (a :: w) (b :: q) ↔ a = b ∧ Agrees w q := by
  unfold Agrees
  rw [List.cons_prefix_cons, List.cons_prefix_cons, eq_comm (a := b), ← and_or_left]

theorem Agrees.prefix_of_le (h : Agrees w q) (hle : w.length ≤ q.length) : w <+: q := by
  rcases h with h | h
  · exact h
  · have heq : q = w := h.eq_of_length_le hle
    exact heq ▸ List.prefix_rfl

theorem Agrees.prefix_of_ge (h : Agrees w q) (hle : q.length ≤ w.length) : q <+: w :=
  Agrees.prefix_of_le (Or.symm h) hle

/-! ## Answers -/

/-- What a dictionary says to a text. -/
inductive Answer (β : Type)
  | noMatch
  | moreChars
  | found (value : β) (len : Nat)
  deriving DecidableEq, Repr

/-- The text `q` may still become the word `w`. -/
def Extends (w q : List α) : Prop := q <+: w ∧ q.length < w.length

/-- The answer to `q`: it may still become a word, or it starts with the word of length `len`, which is
the longest one, or it does not start with a word. -/
def IsAnswer (D : List (List α × β)) (q : List α) : Answer β → Prop
  | .moreChars => ∃ e ∈ D, Extends e.1 q
  | .found value len => (∀ e ∈ D, ¬Extends e.1 q) ∧
      ∃ e ∈ D, e.1 <+: q ∧ e.2 = value ∧ e.1.length = len ∧ ∀ e' ∈ D, e'.1 <+: q → e'.1.length ≤ e.1.length
  | .noMatch => (∀ e ∈ D, ¬Extends e.1 q) ∧ ∀ e ∈ D, ¬e.1 <+: q

variable {D : List (List α × β)}

theorem IsAnswer.of_agreeing {E : List (List α × β)} {r : Answer β} (hsub : ∀ e ∈ D, e ∈ E)
    (hall : ∀ e ∈ E, Agrees e.1 q → e ∈ D) (h : IsAnswer D q r) :
    IsAnswer E q r := by
  cases r with
  | noMatch =>
    exact ⟨fun e he hx => h.1 e (hall e he (.inr hx.1)) hx, fun e he hx => h.2 e (hall e he (.inl hx)) hx⟩
  | moreChars =>
    obtain ⟨e, he, hx⟩ := h
    exact ⟨e, hsub e he, hx⟩
  | found value len =>
    obtain ⟨hno, e, he, hpre, hval, hlen, hmax⟩ := h
    exact ⟨fun e' he' hx => hno e' (hall e' he' (.inr hx.1)) hx, e, hsub e he, hpre, hval, hlen,
      fun e' he' hp => hmax e' (hall e' he' (.inl hp)) hp⟩

/-! ## Counting -/

/-- What is known of the words that have been looked at: how far one of them agrees with the text, the
length and the value of the first one that does, and how many there are. -/
structure Best (β : Type) where
  len : Nat := 0
  real : Nat := 0
  count : Nat := 0
  value : Option β := none

/-- How far a word goes along a text. -/
def overlap (w q : List α) : Nat := min w.length q.length

theorem Extends.overlap (h : Extends w q) : Agrees w q ∧ overlap w q = q.length :=
  ⟨.inr h.1, Nat.min_eq_right (Nat.le_of_lt h.2)⟩

theorem overlap_of_initial (h : w <+: q) : overlap w q = w.length :=
  Nat.min_eq_left h.length_le

variable [DecidableEq α]

/-- The next word. -/
def Best.add (q : List α) (b : Best β) (e : List α × β) : Best β :=
  if Agrees e.1 q then
    if overlap e.1 q = b.len then { b with count := b.count + 1 }
    else if b.len < overlap e.1 q then ⟨overlap e.1 q, e.1.length, 1, some e.2⟩
    else b
  else b

/-- What the words tell. -/
def Best.answer (q : List α) (b : Best β) : Answer β :=
  match b.value with
  | none => .noMatch
  | some value => if 1 < b.count ∨ q.length < b.real then .moreChars else .found value b.len

/-- The words of `D` that agree with `q` as far as `len`. -/
def furthest (D : List (List α × β)) (q : List α) (len : Nat) : List (List α × β) :=
  D.filter fun e => Agrees e.1 q ∧ overlap e.1 q = len

/-- `b` is what is known of the words of `D`. -/
structure Best.Of (D : List (List α × β)) (q : List α) (b : Best β) : Prop where
  bound : ∀ e ∈ D, Agrees e.1 q → overlap e.1 q ≤ b.len
  count : b.len ≠ 0 → b.count = (furthest D q b.len).length
  value : ∀ v, b.value = some v → b.len ≠ 0 ∧ ∃ e ∈ furthest D q b.len, e.2 = v ∧ b.real = e.1.length
  none_ : b.value = none → b.len = 0

variable {e : List α × β} {len : Nat}

theorem mem_furthest : e ∈ furthest D q len ↔ e ∈ D ∧ Agrees e.1 q ∧ overlap e.1 q = len := by
  rw [furthest, List.mem_filter, decide_eq_true_iff]

theorem furthest_append (D E : List (List α × β)) (q : List α) (len : Nat) :
    furthest (D ++ E) q len = furthest D q len ++ furthest E q len :=
  List.filter_append ..

theorem furthest_of_agrees (ha : Agrees e.1 q) : furthest [e] q (overlap e.1 q) = [e] :=
  List.filter_cons_of_pos (decide_eq_true ⟨ha, rfl⟩)

theorem furthest_of_not (h : ¬(Agrees e.1 q ∧ overlap e.1 q = len)) : furthest [e] q len = [] :=
  List.filter_cons_of_neg fun hx => h (of_decide_eq_true hx)

theorem Best.Of.nil (q : List α) : Best.Of ([] : List (List α × β)) q {} where
  bound _ he := absurd he List.not_mem_nil
  count h := absurd rfl h
  value _ h := nomatch h
  none_ _ := rfl

theorem Best.Of.keep {D : List (List α × β)} {q : List α} {b : Best β} (h : Best.Of D q b)
    {e : List α × β} (hle : Agrees e.1 q → overlap e.1 q < b.len) : Best.Of (D ++ [e]) q b where
  bound e' he' ha := by
    rcases List.mem_append.mp he' with he' | he'
    · exact h.bound e' he' ha
    · obtain rfl := List.mem_singleton.mp he'
      exact Nat.le_of_lt (hle ha)
  count hlen := by
    have hno : furthest [e] q b.len = [] :=
      furthest_of_not fun hx => Nat.ne_of_lt (hle hx.1) hx.2
    rw [furthest_append, hno, List.append_nil]
    exact h.count hlen
  value v hv := by
    obtain ⟨hlen, e', he', hval, hreal⟩ := h.value v hv
    refine ⟨hlen, e', ?_, hval, hreal⟩
    rw [furthest_append]
    exact List.mem_append_left _ he'
  none_ := h.none_

variable {b : Best β}

theorem Best.Of.again (h : Best.Of D q b) (ha : Agrees e.1 q) (heq : overlap e.1 q = b.len) :
    Best.Of (D ++ [e]) q { b with count := b.count + 1 } where
  bound e' he' ha := by
    rcases List.mem_append.mp he' with he' | he'
    · exact h.bound e' he' ha
    · obtain rfl := List.mem_singleton.mp he'
      exact Nat.le_of_eq heq
  count hlen := by
    dsimp only at hlen ⊢
    rw [furthest_append, List.length_append, ← h.count hlen, ← heq, furthest_of_agrees ha]
    rfl
  value v hv := by
    obtain ⟨hlen, e', he', hval, hreal⟩ := h.value v hv
    refine ⟨hlen, e', ?_, hval, hreal⟩
    rw [furthest_append]
    exact List.mem_append_left _ he'
  none_ := h.none_

theorem Best.Of.further (h : Best.Of D q b) (ha : Agrees e.1 q) (hlt : b.len < overlap e.1 q) :
    Best.Of (D ++ [e]) q ⟨overlap e.1 q, e.1.length, 1, some e.2⟩ where
  bound e' he' ha := by
    rcases List.mem_append.mp he' with he' | he'
    · exact Nat.le_trans (h.bound e' he' ha) (Nat.le_of_lt hlt)
    · obtain rfl := List.mem_singleton.mp he'
      exact Nat.le_refl _
  count _ := by
    have hno : furthest D q (overlap e.1 q) = [] := by
      rw [List.eq_nil_iff_forall_not_mem]
      intro e' he'
      obtain ⟨hD, ha', heq⟩ := mem_furthest.mp he'
      exact absurd (h.bound e' hD ha') (by omega)
    rw [furthest_append, hno, furthest_of_agrees ha]
    rfl
  value v hv := by
    refine ⟨Nat.ne_of_gt (Nat.lt_of_le_of_lt (Nat.zero_le _) hlt), e, ?_, Option.some.inj hv, rfl⟩
    rw [furthest_append, furthest_of_agrees ha]
    exact List.mem_append_right _ (List.mem_singleton.mpr rfl)
  none_ hv := nomatch hv

theorem Best.Of.add (h : Best.Of D q b) (e : List α × β) : Best.Of (D ++ [e]) q (b.add q e) := by
  unfold Best.add
  by_cases ha : Agrees e.1 q
  · rw [if_pos ha]
    by_cases heq : overlap e.1 q = b.len
    · rw [if_pos heq]
      exact h.again ha heq
    · rw [if_neg heq]
      by_cases hlt : b.len < overlap e.1 q
      · rw [if_pos hlt]
        exact h.further ha hlt
      · rw [if_neg hlt]
        exact h.keep fun _ => by omega
  · rw [if_neg ha]
    exact h.keep fun hx => absurd hx ha

theorem Best.Of.foldl (q : List α) : ∀ (E D : List (List α × β)) (b : Best β), Best.Of D q b →
    Best.Of (D ++ E) q (E.foldl (Best.add q) b) := by
  intro E
  induction E with
  | nil =>
    intro D b h
    rw [List.append_nil]
    exact h
  | cons e E ih =>
    intro D b h
    rw [List.foldl_cons, List.append_cons]
    exact ih (D ++ [e]) (b.add q e) (h.add e)

/-! ## The answer -/

theorem eq_of_furthest (hD : (D.map Prod.fst).Nodup) {e' : List α × β} (he : e ∈ furthest D q len)
    (he' : e' ∈ furthest D q len) (hle : e.1.length ≤ q.length) (hle' : e'.1.length ≤ q.length) : e = e' := by
  obtain ⟨hmem, ha, hlen⟩ := mem_furthest.mp he
  obtain ⟨hmem', ha', hlen'⟩ := mem_furthest.mp he'
  have hp := ha.prefix_of_le hle
  have hp' := ha'.prefix_of_le hle'
  rw [overlap_of_initial hp] at hlen
  rw [overlap_of_initial hp'] at hlen'
  have hword : e.1 = e'.1 := by
    rw [List.prefix_iff_eq_take.mp hp, List.prefix_iff_eq_take.mp hp', hlen, hlen']
  exact List.inj_on_of_nodup_map hD hmem hmem' hword

omit [DecidableEq α] in
theorem eq_of_mem_of_length_le_one {l : List α} (hl : l.length ≤ 1) {a b : α} (ha : a ∈ l) (hb : b ∈ l) :
    a = b := by
  rcases l with _ | ⟨c, _ | ⟨d, l⟩⟩
  · exact absurd ha List.not_mem_nil
  · rw [List.mem_singleton.mp ha, List.mem_singleton.mp hb]
  · exact absurd hl (by simp)

theorem exists_extends (hD : (D.map Prod.fst).Nodup) (hlen : 1 < (furthest D q len).length)
    : ∃ e ∈ D, Extends e.1 q := by
  have hnodup : (furthest D q len).Nodup := (List.Nodup.of_map _ hD).filter _
  have hlong : ∀ e ∈ furthest D q len, ¬e.1.length ≤ q.length → ∃ e ∈ D, Extends e.1 q := by
    intro e he hlt
    obtain ⟨hmem, ha, _⟩ := mem_furthest.mp he
    exact ⟨e, hmem, ha.prefix_of_ge (by omega), by omega⟩
  rcases hf : furthest D q len with _ | ⟨x, _ | ⟨y, l⟩⟩
  · rw [hf] at hlen
    exact absurd hlen (by simp)
  · rw [hf] at hlen
    exact absurd hlen (by simp)
  · have hx : x ∈ furthest D q len := by rw [hf]; exact List.mem_cons_self
    have hy : y ∈ furthest D q len := by
      rw [hf]
      exact List.mem_cons_of_mem x List.mem_cons_self
    by_cases hxq : x.1.length ≤ q.length
    · by_cases hyq : y.1.length ≤ q.length
      · rw [hf] at hnodup
        have heq := eq_of_furthest hD hx hy hxq hyq
        exact absurd (List.mem_cons_self : y ∈ y :: l) (heq ▸ (List.nodup_cons.mp hnodup).1)
      · exact hlong y hy hyq
    · exact hlong x hx hxq

/-- The counters tell whether the text may still become a word, and which word it starts with. -/
theorem Best.Of.isAnswer (h : Best.Of D q b) (hD : (D.map Prod.fst).Nodup) (hne : ∀ e ∈ D, e.1 ≠ []) (hq : q ≠ []) :
    IsAnswer D q (b.answer q) := by
  have hpos : ∀ e ∈ D, 0 < overlap e.1 q := fun e he =>
    Nat.lt_min.mpr ⟨List.length_pos_iff.mpr (hne e he), List.length_pos_iff.mpr hq⟩
  unfold Best.answer
  rcases hval : b.value with _ | v
  · -- no word agrees at all
    have hno : ∀ e ∈ D, ¬Agrees e.1 q := fun e he ha =>
      absurd (h.bound e he ha) (by have := hpos e he; have := h.none_ hval; omega)
    exact ⟨fun e he hx => hno e he hx.overlap.1, fun e he hx => hno e he (.inl hx)⟩
  · obtain ⟨hlen, e, he, hev, hreal⟩ := h.value v hval
    obtain ⟨heD, hea, heo⟩ := mem_furthest.mp he
    have hcount := h.count hlen
    dsimp only
    by_cases hmore : 1 < b.count ∨ q.length < b.real
    · rw [if_pos hmore]
      rcases hmore with hc | hr
      · exact exists_extends hD (hcount ▸ hc)
      · rw [hreal] at hr
        exact ⟨e, heD, hea.prefix_of_ge (Nat.le_of_lt hr), hr⟩
    · rw [if_neg hmore]
      have hle : e.1.length ≤ q.length := by
        rw [← hreal]
        exact Nat.not_lt.mp fun hx => hmore (.inr hx)
      have hpre := hea.prefix_of_le hle
      refine ⟨fun e' he' hx => ?_, e, heD, hpre, hev, ?_, fun e' he' hp => ?_⟩
      · -- a second word would have been counted
        obtain ⟨ha', ho'⟩ := hx.overlap
        have hfull : b.len = q.length :=
          Nat.le_antisymm (heo ▸ Nat.min_le_right _ _) (ho' ▸ h.bound e' he' ha')
        have hin : e' ∈ furthest D q b.len := mem_furthest.mpr ⟨he', ha', ho'.trans hfull.symm⟩
        have hone : (furthest D q b.len).length ≤ 1 := by
          rw [← hcount]
          exact Nat.not_lt.mp fun hx => hmore (.inl hx)
        obtain rfl := eq_of_mem_of_length_le_one hone he hin
        exact Nat.not_lt.mpr hle hx.2
      · rw [← heo, overlap_of_initial hpre]
      · rw [← overlap_of_initial hp, ← overlap_of_initial hpre, heo]
        exact h.bound e' he' (.inl hp)

end Lib
end Qemacs
