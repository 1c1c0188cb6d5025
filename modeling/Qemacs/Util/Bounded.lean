import Qemacs.Lib.Run
import Qemacs.Util.Buf

/-!
# What an output buffer holds when not everything fits

Five functions write to a `buf_t`, and each has its own test for what still fits: `buf_write`,
`buf_printf` and `buf_putc_utf8` ask `pos`, `buf_put_byte` asks `len`. As long as everything has
been stored the two are equal, and after a write that was cut the array is full, so that both tests
fail. But `buf_putc_utf8` does not cut: a character of several bytes that does not fit is left out,
and then `pos` is past the end while the array has room (`BufT.Gap`).

From there the functions part. `buf_write` and `buf_putc_utf8` see `pos` and store nothing any more.
`buf_put_byte` sees the room and puts its byte in the place of the character; `buf_printf` prints an
empty string, but adds to `len` what it would have printed. So the array holds a prefix of the
output at all times exactly when neither of them comes after such a character
(`bufT_holdsPrefix_iff`).
-/

namespace Qemacs

open Lib

/-- A call that writes to a `buf_t`. A printf is given by what its format makes. -/
inductive OutCall
  | write (src : List UInt8)
  | puts (str : List UInt8)
  | putByte (ch : UInt8)
  | putcUtf8 (c : UInt32)
  | printf (out : List UInt8)
  deriving DecidableEq, Repr

def OutCall.output : OutCall → List UInt8
  | .write src => src
  | .puts str => str.takeWhile (· ≠ 0)
  | .putByte ch => [ch]
  | .putcUtf8 c => utf8Encode c.toNat
  | .printf out => out

/-- The buffer after a call. `buf_puts` is `buf_write` of the bytes up to the NUL. -/
def OutCall.exec (bp : BufT) : OutCall → BufT
  | .write src => bp.puts src
  | .puts str => bp.puts (str.takeWhile (· ≠ 0))
  | .putByte ch => bp.putByte ch
  | .putcUtf8 c => bp.putcUtf8 c.toNat
  | .printf out => bp.printf out

/-- The concatenation of all outputs. -/
def outputs (calls : List OutCall) : List UInt8 := calls.flatMap OutCall.output

/-- No character that `buf_putc_utf8` was to write is cut by the end of the first `len` bytes. -/
def WholeChars (calls : List OutCall) (len : Nat) : Prop :=
  ∀ pre c post, calls = pre ++ OutCall.putcUtf8 c :: post →
    len ≤ (outputs pre).length ∨ (outputs pre).length + (utf8Encode c.toNat).length ≤ len

/-- The buffer holds a prefix of what the calls wrote. -/
structure BufT.HoldsPrefix (bp : BufT) (calls : List OutCall) : Prop where
  len_lt : bp.len < bp.size
  nul : bp.buf[bp.len]? = some 0
  text : bp.text <+: outputs calls
  whole : WholeChars calls bp.len
  pos : bp.pos = (outputs calls).length

/-- There is room in the array, but `pos` is past its end. -/
def BufT.Gap (bp : BufT) : Prop := bp.size ≤ bp.pos ∧ bp.len + 1 < bp.size

instance decidableGap (bp : BufT) : Decidable bp.Gap := inferInstanceAs (Decidable (_ ∧ _))

/-- The calls that do not see that `pos` is past the end. -/
def OutCall.Blind : OutCall → Prop
  | .putByte _ => True
  | .printf out => out ≠ []
  | _ => False

instance decidableBlind : ∀ call : OutCall, Decidable call.Blind
  | .write _ => isFalse id
  | .puts _ => isFalse id
  | .putByte _ => isTrue True.intro
  | .putcUtf8 _ => isFalse id
  | .printf out => inferInstanceAs (Decidable (out ≠ []))

/-- The call does not write into a gap. -/
def OutCall.Harmless (bp : BufT) (call : OutCall) : Prop := ¬(bp.Gap ∧ call.Blind)

instance decidableHarmless (bp : BufT) (call : OutCall) : Decidable (call.Harmless bp) :=
  inferInstanceAs (Decidable ¬_)

/-! ## The array -/

theorem outputs_append (a b : List OutCall) : outputs (a ++ b) = outputs a ++ outputs b :=
  List.flatMap_append

theorem outputs_snoc (calls : List OutCall) (call : OutCall) :
    outputs (calls ++ [call]) = outputs calls ++ call.output := by
  rw [outputs_append, outputs, outputs, List.flatMap_cons, List.flatMap_nil, List.append_nil]

theorem eq_append_snoc {calls pre post : List OutCall} {call x : OutCall}
    (h : calls ++ [call] = pre ++ x :: post) :
    (calls = pre ∧ call = x) ∨ ∃ post', calls = pre ++ x :: post' := by
  rcases List.eq_nil_or_concat post with rfl | ⟨post', last, rfl⟩
  · obtain ⟨rfl, hx⟩ := List.append_inj' h rfl
    exact .inl ⟨rfl, List.head_eq_of_cons_eq hx⟩
  · rw [List.concat_eq_append, ← List.cons_append, ← List.append_assoc] at h
    exact .inr ⟨post', (List.append_inj' h rfl).1⟩

theorem utf8Encode_head (c : UInt32) (h : 1 < (utf8Encode c.toNat).length) :
    ∃ lead tr, utf8Encode c.toNat = lead :: tr ∧ lead ≠ 0 := by
  rcases utf8Encode_cases c.toNat_lt with ⟨x, -, -, heq⟩ | ⟨lead, tr, hencodes, heq⟩
  · rw [heq] at h
    exact absurd h (Nat.lt_irrefl 1)
  · refine ⟨lead, tr, heq, ?_⟩
    rintro rfl
    exact hencodes.isSequence.isLead (by decide)

/-! ## The invariant -/

/-- What is true of the buffer as long as no call writes into a gap. The three ways the counters
can stand: nothing is lost; the array is full; there is a gap, where a character was left out. -/
structure BufT.Inv (bp : BufT) (calls : List OutCall) : Prop where
  size : bp.buf.length = bp.size
  len_lt : bp.len < bp.size
  text : bp.buf.take (bp.len + 1) = (outputs calls).take bp.len ++ [0]
  whole : WholeChars calls bp.len
  pos : bp.pos = (outputs calls).length
  counters : (bp.pos < bp.size ∧ bp.len = bp.pos) ∨ (bp.size ≤ bp.pos ∧ bp.len + 1 = bp.size) ∨
    (bp.Gap ∧ ∃ pre c post, calls = pre ++ OutCall.putcUtf8 c :: post ∧
      (outputs pre).length = bp.len ∧ 1 < (utf8Encode c.toNat).length)

section Inv

variable {bp : BufT} {calls : List OutCall}

theorem BufT.Inv.len_le (h : bp.Inv calls) : bp.len ≤ (outputs calls).length := by
  have hpos := h.pos
  rcases h.counters with ⟨_, heq⟩ | ⟨hle, _⟩ | ⟨⟨hle, _⟩, _⟩ <;> omega

theorem BufT.Inv.holdsPrefix (h : bp.Inv calls) : bp.HoldsPrefix calls := by
  have hlen := h.len_le
  refine ⟨h.len_lt, ?_, ?_, h.whole, h.pos⟩
  · have hget := congrArg (fun l => l[bp.len]?) h.text
    simp only [List.getElem?_take_of_lt (Nat.lt_succ_self bp.len)] at hget
    rwa [List.getElem?_append_right (by rw [List.length_take]; exact Nat.min_le_left _ _),
      List.length_take, Nat.min_eq_left hlen, Nat.sub_self] at hget
  · have htake := congrArg (List.take bp.len) h.text
    rw [List.take_take, Nat.min_eq_left (Nat.le_succ _),
      List.take_left' (by rw [List.length_take, Nat.min_eq_left hlen])] at htake
    rw [BufT.text, htake]
    exact List.take_prefix _ _

/-- Only the position changes, which is past the end or comes to be. -/
theorem BufT.Inv.skip (h : bp.Inv calls) (call : OutCall) {buf : List UInt8}
    (hsize : buf.length = bp.size) (hbuf : buf.take (bp.len + 1) = bp.buf.take (bp.len + 1))
    (hpast : bp.size ≤ bp.pos + call.output.length)
    (hleft : bp.len + 1 < bp.size → bp.pos < bp.size →
      ∃ c, call = .putcUtf8 c ∧ 1 < (utf8Encode c.toNat).length) :
    ({ bp with buf := buf, pos := bp.pos + call.output.length } : BufT).Inv (calls ++ [call]) := by
  have hlen := h.len_le
  have hlt := h.len_lt
  refine ⟨hsize, h.len_lt, ?_, ?_, ?_, ?_⟩
  · rw [hbuf, outputs_snoc, List.take_append_of_le_length hlen]
    exact h.text
  · intro pre c post heq
    rcases eq_append_snoc heq with ⟨rfl, -⟩ | ⟨post', rfl⟩
    · exact .inl hlen
    · exact h.whole pre c post' rfl
  · rw [outputs_snoc, List.length_append, ← h.pos]
  · by_cases hfull : bp.len + 1 = bp.size
    · exact .inr (.inl ⟨hpast, hfull⟩)
    · refine .inr (.inr ⟨⟨hpast, show bp.len + 1 < bp.size by omega⟩, ?_⟩)
      rcases h.counters with ⟨hroom, heq⟩ | ⟨-, hfull'⟩ | ⟨-, pre, c, post, rfl, hstart, hmulti⟩
      · obtain ⟨c, rfl, hmulti⟩ := hleft (by omega) hroom
        exact ⟨calls, c, [], rfl, by rw [heq, h.pos], hmulti⟩
      · exact absurd hfull' hfull
      · exact ⟨pre, c, post ++ [call], by rw [List.append_assoc, List.cons_append], hstart, hmulti⟩

theorem BufT.Inv.store (h : bp.Inv calls) (call : OutCall) (hroom : bp.pos < bp.size)
    (hwhole : ∀ c, call = .putcUtf8 c → bp.pos + call.output.length < bp.size) :
    (bp.puts call.output).Inv (calls ++ [call]) := by
  have hpos := h.pos
  have hsize := h.size
  have heq : bp.len = bp.pos := by
    rcases h.counters with ⟨-, heq⟩ | ⟨hle, -⟩ | ⟨⟨hle, -⟩, -⟩ <;> omega
  have hall : bp.buf.take bp.len = outputs calls := by
    have htake := congrArg (List.take bp.len) h.text
    rwa [List.take_take, Nat.min_eq_left (Nat.le_succ _),
      List.take_left' (by rw [List.length_take]; omega), heq, hpos, List.take_length, ← hpos,
      ← heq] at htake
  generalize hn : min (bp.size - bp.pos - 1) call.output.length = n
  have hnle : n ≤ call.output.length := by omega
  have hlast : (call.output.take n ++ [0]).length = n + 1 := by
    rw [List.length_append, List.length_take, Nat.min_eq_left hnle, List.length_singleton]
  simp only [BufT.puts]
  rw [if_pos hroom, hn]
  refine ⟨?_, ?_, ?_, ?_, ?_, ?_⟩
  · simp only []
    rw [length_overwriteAt (by rw [hlast]; omega), hsize]
  · simp only []
    omega
  · have hwrite := take_overwriteAt (i := bp.len) (call.output.take n ++ [0]) (l := bp.buf) (by omega)
    rw [hlast, hall, ← List.append_assoc] at hwrite
    simp only []
    rw [Nat.add_assoc, hwrite, outputs_snoc, heq, hpos, List.take_length_add_append]
  · intro pre c post hsplit
    simp only []
    rcases eq_append_snoc hsplit with ⟨rfl, rfl⟩ | ⟨post', rfl⟩
    · have hfits := hwhole c rfl
      simp only [OutCall.output] at hfits hn ⊢
      omega
    · have hbefore := h.whole pre c post' rfl
      have hends : (outputs pre).length + (utf8Encode c.toNat).length
          ≤ (outputs (pre ++ OutCall.putcUtf8 c :: post')).length := by
        rw [outputs_append, List.length_append, outputs, outputs, List.flatMap_cons, List.length_append]
        simp only [OutCall.output]
        omega
      omega
  · simp only []
    rw [outputs_snoc, List.length_append, hpos]
  · simp only []
    omega

/-- **A call that does not write into a gap keeps the invariant.** -/
theorem BufT.Inv.exec (h : bp.Inv calls) {call : OutCall} (hok : call.Harmless bp) :
    (call.exec bp).Inv (calls ++ [call]) := by
  have hpos := h.pos
  have hlt := h.len_lt
  have hsize := h.size
  have heq : bp.pos < bp.size → bp.len = bp.pos := by
    intro hroom
    rcases h.counters with ⟨-, heq⟩ | ⟨hle, -⟩ | ⟨⟨hle, -⟩, -⟩ <;> omega
  have hnul : (overwriteAt bp.len [0] bp.buf).take (bp.len + 1) = bp.buf.take (bp.len + 1) := by
    have hwrite := take_overwriteAt (i := bp.len) [0] (l := bp.buf) (by omega)
    have htake := congrArg (List.take bp.len) h.text
    rw [List.take_take, Nat.min_eq_left (Nat.le_succ _),
      List.take_left' (by rw [List.length_take, Nat.min_eq_left h.len_le])] at htake
    rw [List.length_singleton] at hwrite
    rw [hwrite, h.text, htake]
  have hputs : ∀ call : OutCall, (∀ c, call ≠ .putcUtf8 c) → (bp.puts call.output).Inv (calls ++ [call]) := by
    intro call hnot
    by_cases hroom : bp.pos < bp.size
    · exact h.store call hroom fun c hc => absurd hc (hnot c)
    · rw [BufT.puts, if_neg hroom]
      exact h.skip call hsize rfl (by omega) fun _ hlt => absurd hlt hroom
  cases call with
  | write src => exact hputs (.write src) (by simp)
  | puts str => exact hputs (.puts str) (by simp)
  | putByte ch =>
    simp only [OutCall.exec, BufT.putByte]
    by_cases hroom : bp.len + 1 < bp.size
    · -- there is room, and no gap: everything is stored
      have hin : bp.pos < bp.size := by
        by_contra hpast
        exact hok ⟨⟨by omega, hroom⟩, True.intro⟩
      have hstore := h.store (.putByte ch) hin (by simp)
      have hone : min (bp.size - bp.pos - 1) 1 = 1 := by have := heq hin; omega
      simp only [OutCall.output, BufT.puts, if_pos hin, List.length_singleton, hone] at hstore
      rw [if_pos hroom]
      exact hstore
    · rw [if_neg hroom]
      refine h.skip (.putByte ch) hsize rfl ?_ fun hlt => absurd hlt hroom
      simp only [OutCall.output, List.length_singleton]
      rcases h.counters with ⟨_, _⟩ | ⟨_, _⟩ | ⟨⟨_, _⟩, _⟩ <;> omega
  | putcUtf8 c =>
    simp only [OutCall.exec, BufT.putcUtf8]
    by_cases hfits : bp.pos + (utf8Encode c.toNat).length < bp.size
    · have hin : bp.pos < bp.size := by omega
      have hstore := h.store (.putcUtf8 c) hin (by intro c' _; exact hfits)
      have hall : min (bp.size - bp.pos - 1) (utf8Encode c.toNat).length
          = (utf8Encode c.toNat).length := by omega
      simp only [OutCall.output, BufT.puts, if_pos hin, hall, List.take_length] at hstore
      rw [if_pos hfits]
      exact hstore
    · rw [if_neg hfits]
      refine h.skip (.putcUtf8 c) hsize rfl (by simp only [OutCall.output]; omega) ?_
      intro hroom hin
      have := heq hin
      exact ⟨c, rfl, by omega⟩
  | printf out =>
    simp only [OutCall.exec, BufT.printf]
    by_cases hin : bp.pos < bp.size
    · have hstore := h.store (.printf out) hin (by simp)
      have hcut : out.take (bp.size - bp.pos - 1) = out.take (min (bp.size - bp.pos - 1) out.length) := by
        rw [List.take_eq_take_iff]
        omega
      have hlen : (if bp.len + out.length ≥ bp.size then bp.size - 1 else bp.len + out.length)
          = bp.len + min (bp.size - bp.pos - 1) out.length := by
        have := heq hin
        split <;> omega
      simp only [OutCall.output, BufT.puts, if_pos hin] at hstore
      rw [if_pos hin, hcut, hlen]
      exact hstore
    · have hlen : (if bp.len + out.length ≥ bp.size then bp.size - 1 else bp.len + out.length) = bp.len := by
        by_cases hgap : bp.Gap
        · have hempty : out = [] := by
            by_contra hne
            exact hok ⟨hgap, hne⟩
          rw [hempty, List.length_nil, Nat.add_zero, if_neg (by omega)]
        · have : ¬(bp.size ≤ bp.pos ∧ bp.len + 1 < bp.size) := hgap
          split <;> omega
      rw [if_neg hin, hlen, Nat.sub_self, List.take_zero, List.nil_append]
      refine h.skip (.printf out) ?_ hnul (by simp only [OutCall.output]; omega)
        fun _ hlt => absurd hlt hin
      rw [length_overwriteAt (by rw [List.length_singleton]; omega), hsize]

/-- **A call that writes into a gap breaks what the buffer is for.** -/
theorem BufT.Inv.not_holdsPrefix (h : bp.Inv calls) {call : OutCall} (hbad : ¬call.Harmless bp) :
    ¬(call.exec bp).HoldsPrefix (calls ++ [call]) := by
  obtain ⟨hgap, hblind⟩ : bp.Gap ∧ call.Blind := not_not.mp hbad
  have hgap' : bp.size ≤ bp.pos ∧ bp.len + 1 < bp.size := hgap
  obtain ⟨pre, c, post, hcalls, hstart, hmulti⟩ : ∃ pre c post,
      calls = pre ++ OutCall.putcUtf8 c :: post ∧ (outputs pre).length = bp.len ∧
        1 < (utf8Encode c.toNat).length := by
    rcases h.counters with ⟨hin, -⟩ | ⟨-, hfull⟩ | ⟨-, hleft⟩
    · exact absurd hin (by omega)
    · exact absurd hfull (by omega)
    · exact hleft
  intro hholds
  cases call with
  | write src => exact hblind
  | puts str => exact hblind
  | putcUtf8 c => exact hblind
  | putByte ch =>
    -- one byte, where there was to be a character of several
    have hlen : (OutCall.exec bp (.putByte ch)).len = bp.len + 1 := by
      simp only [OutCall.exec, BufT.putByte]
      rw [if_pos hgap'.2]
    have hcut := hholds.whole pre c (post ++ [.putByte ch])
      (by rw [hcalls, List.append_assoc, List.cons_append])
    rw [hlen] at hcut
    omega
  | printf out =>
    have hout : 0 < out.length := List.length_pos_iff.mpr hblind
    -- the NUL is in the text, where the character starts
    have hbuf : (OutCall.exec bp (.printf out)).buf[bp.len]? = some 0 := by
      have hwrite := take_overwriteAt (i := bp.len) [0] (l := bp.buf)
        (by rw [h.size]; exact Nat.le_of_lt h.len_lt)
      simp only [OutCall.exec, BufT.printf]
      rw [if_neg (by omega), Nat.sub_self, List.take_zero, List.nil_append,
        ← List.getElem?_take_of_lt (Nat.lt_succ_self bp.len)]
      rw [List.length_singleton] at hwrite
      rw [hwrite, List.getElem?_append_right (by rw [List.length_take]; exact Nat.min_le_left _ _),
        List.length_take, h.size, Nat.min_eq_left (Nat.le_of_lt h.len_lt), Nat.sub_self]
      rfl
    have hlen : bp.len < (OutCall.exec bp (.printf out)).len := by
      simp only [OutCall.exec, BufT.printf]
      split <;> omega
    have htext : (OutCall.exec bp (.printf out)).text[bp.len]? = some 0 := by
      rw [BufT.text, List.getElem?_take_of_lt hlen]
      exact hbuf
    obtain ⟨lead, tr, henc, hlead⟩ := utf8Encode_head c hmulti
    obtain ⟨rest, hrest⟩ := hholds.text
    have hget := congrArg (fun l => l[bp.len]?) hrest
    rw [List.getElem?_append_left (List.getElem?_eq_some_iff.mp htext).1, htext, hcalls,
      List.append_assoc, outputs_append, List.cons_append, outputs, outputs, List.flatMap_cons,
      OutCall.output, henc, List.cons_append, ← outputs, ← hstart, getElem?_middle] at hget
    exact hlead (Option.some.inj hget).symm

end Inv

/-! ## Runs -/

theorem bufInit_inv {buf : List UInt8} (h : 0 < buf.length) : (bufInit buf).Inv [] := by
  have hinit := bufInit_holds h
  refine ⟨hinit.size, h, ?_, ?_, rfl, .inl ⟨h, rfl⟩⟩
  · exact hinit.text
  · intro pre c post heq
    exact absurd heq (by simp)

/-- From a state with the invariant: it holds a prefix after each of the calls exactly when none of
them writes into a gap. -/
theorem BufT.Inv.run_iff (calls : List OutCall) :
    ∀ {bp : BufT} {done : List OutCall}, bp.Inv done →
      ((∀ pre, pre <+: calls → (pre.foldl OutCall.exec bp).HoldsPrefix (done ++ pre))
        ↔ Meets OutCall.Harmless OutCall.exec bp calls) := by
  induction calls with
  | nil =>
    intro bp done h
    refine ⟨fun _ => True.intro, fun _ pre hpre => ?_⟩
    rw [List.prefix_nil.mp hpre, List.append_nil]
    exact h.holdsPrefix
  | cons call calls ih =>
    intro bp done h
    by_cases hok : call.Harmless bp
    · have hnext := ih (h.exec hok)
      rw [Meets, ← hnext]
      constructor
      · intro hall
        refine ⟨hok, fun pre hpre => ?_⟩
        have hcons := hall (call :: pre) (List.cons_prefix_cons.mpr ⟨rfl, hpre⟩)
        rwa [List.append_assoc]
      · rintro ⟨-, hall⟩ pre hpre
        rcases List.prefix_cons_iff.mp hpre with rfl | ⟨pre, rfl, hrest⟩
        · rw [List.append_nil]
          exact h.holdsPrefix
        · have hcons := hall pre hrest
          rwa [List.append_assoc] at hcons
    · refine ⟨fun hall => absurd ?_ (h.not_holdsPrefix hok), fun hmeets => absurd hmeets.1 hok⟩
      exact hall [call] ⟨calls, rfl⟩

/-- **The array holds a prefix of the output at all times exactly when no `buf_put_byte`, and no
`buf_printf` of something, comes while `pos` is past the end of an array with room.** -/
theorem bufT_holdsPrefix_iff {buf : List UInt8} (hbuf : 0 < buf.length) (calls : List OutCall) :
    (∀ pre, pre <+: calls → (pre.foldl OutCall.exec (bufInit buf)).HoldsPrefix pre)
      ↔ Meets OutCall.Harmless OutCall.exec (bufInit buf) calls :=
  (bufInit_inv hbuf).run_iff calls

/-- A name that is cut, and printed into what is left. -/
theorem bufT_holdsPrefix_cut :
    Meets OutCall.Harmless OutCall.exec (bufInit [7, 7, 7])
        [OutCall.puts [97, 98, 99, 100], .printf [101], .putByte 102] ∧
      ∀ pre, pre <+: [OutCall.puts [97, 98, 99, 100], .printf [101], .putByte 102] →
        (pre.foldl OutCall.exec (bufInit [7, 7, 7])).HoldsPrefix pre := by
  have hmeets : Meets OutCall.Harmless OutCall.exec (bufInit [7, 7, 7])
      [OutCall.puts [97, 98, 99, 100], .printf [101], .putByte 102] := by decide
  exact ⟨hmeets, (bufT_holdsPrefix_iff (by decide) _).mpr hmeets⟩

/-- In three bytes there is no room for the euro sign; there is for the letter after it. -/
theorem bufT_euro :
    ([OutCall.putcUtf8 0x20AC, .putByte 97].foldl OutCall.exec (bufInit [0, 0, 0])).text = [97] ∧
    ¬(∀ pre, pre <+: [OutCall.putcUtf8 0x20AC, .putByte 97] →
      (pre.foldl OutCall.exec (bufInit [0, 0, 0])).HoldsPrefix pre) := by
  have htext : ([OutCall.putcUtf8 0x20AC, .putByte 97].foldl OutCall.exec
      (bufInit [0, 0, 0])).text = [97] := by decide
  refine ⟨htext, fun hall => ?_⟩
  have hprefix := (hall _ List.prefix_rfl).text
  rw [htext] at hprefix
  exact absurd hprefix (by decide)

end Qemacs
