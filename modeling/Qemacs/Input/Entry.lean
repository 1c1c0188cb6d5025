import Qemacs.Input.Kmap
import Qemacs.Charset.Utf8
import Mathlib.Algebra.Ring.Nat

/-!
# An entry of a packed map

What `putEntry` writes is what `scanEntry` reads, whatever comes behind it: the bytes of the input, and
the output. The first character of the output is right if the reader has kept to the outputs of the
entries before.
-/

namespace Qemacs

open Lib

/-! ## Bytes -/

theorem readWord_putWord {c : Nat} (hc : c < 65536) (r : List UInt8) :
    readWord (putWord c ++ r) = some (c, r) := by
  have hhi : (UInt8.ofNat (c >>> 8)).toNat = c / 256 := by
    rw [UInt8.toNat_ofNat', Nat.shiftRight_eq_div_pow]
    exact Nat.mod_eq_of_lt (by omega)
  have hlo : (UInt8.ofNat c).toNat = c % 256 := UInt8.toNat_ofNat'
  change some ((UInt8.ofNat (c >>> 8)).toNat <<< 8 ||| (UInt8.ofNat c).toNat, r) = _
  rw [hhi, hlo, ← Nat.shiftLeft_add_eq_or_of_lt (show c % 256 < 2 ^ 8 by omega), Nat.shiftLeft_eq]
  congr 2
  omega

/-- The flag of an input byte. -/
def inputFlag (unit : Bool) : UInt8 := if unit then 0x80 else 0

theorem plain_input (c : UInt8) (unit : Bool) (h : 0x20 ≤ c ∧ c ≤ 0x7f) :
    ((c ||| inputFlag unit) &&& 0x80 ≠ 0 ↔ unit = true) ∧ (c ||| inputFlag unit) &&& 0x7f = c ∧
      c ≠ 0 ∧ ¬c < 0x1e ∧ c ≠ 0x1e ∧ c ≠ 0x1f := by
  cases unit with
  | false =>
    exact forall_byte (P := fun c => 0x20 ≤ c ∧ c ≤ 0x7f → ((c ||| inputFlag false) &&& 0x80 ≠ 0 ↔
      false = true) ∧ (c ||| inputFlag false) &&& 0x7f = c ∧ c ≠ 0 ∧ ¬c < 0x1e ∧ c ≠ 0x1e ∧ c ≠ 0x1f)
      (by decide +kernel) c h
  | true =>
    exact forall_byte (P := fun c => 0x20 ≤ c ∧ c ≤ 0x7f → ((c ||| inputFlag true) &&& 0x80 ≠ 0 ↔
      true = true) ∧ (c ||| inputFlag true) &&& 0x7f = c ∧ c ≠ 0 ∧ ¬c < 0x1e ∧ c ≠ 0x1e ∧ c ≠ 0x1f)
      (by decide +kernel) c h

section Scanning

variable {buf : List Nat}

/-! ## Input -/

/-- Whether the bytes of an input agree with what has been typed from `l1` on. -/
def agreesFrom (buf : List Nat) : Nat → List UInt8 → Bool
  | _, [] => true
  | l1, c :: input => agreesAt buf l1 c.toNat && agreesFrom buf (l1 + 1) input

theorem agreesFrom_append : ∀ (a b : List UInt8) (l1 : Nat),
    agreesFrom buf l1 (a ++ b) = (agreesFrom buf l1 a && agreesFrom buf (l1 + a.length) b) := by
  intro a
  induction a with
  | nil => intro b l1; rfl
  | cons c a ih =>
    intro b l1
    rw [List.cons_append, agreesFrom, agreesFrom, ih, Bool.and_assoc, List.length_cons,
      show l1 + 1 + a.length = l1 + (a.length + 1) by omega]

theorem agreesAt_of_end {l1 : Nat} (h : buf.length ≤ l1) (c : Nat) : agreesAt buf l1 c = true := by
  rw [agreesAt, List.getElem?_eq_none h]
  rfl

theorem agreesFrom_iff : ∀ (input : List UInt8) (l1 : Nat),
    agreesFrom buf l1 input = true ↔ Agrees (input.map UInt8.toNat) (buf.drop l1) := by
  intro input
  induction input with
  | nil => intro l1; exact ⟨fun _ => .inl List.nil_prefix, fun _ => rfl⟩
  | cons c input ih =>
    intro l1
    rw [agreesFrom, Bool.and_eq_true_iff, ih (l1 + 1), List.map_cons]
    by_cases hl : l1 < buf.length
    · rw [List.drop_eq_getElem_cons hl, agrees_cons_cons, agreesAt, List.getElem?_eq_getElem hl,
        Option.all_some, beq_iff_eq, eq_comm]
    · have hend : buf.drop l1 = [] := List.drop_eq_nil_of_le (Nat.not_lt.mp hl)
      have hend' : buf.drop (l1 + 1) = [] := List.drop_eq_nil_of_le (by omega)
      rw [hend, hend']
      exact ⟨fun _ => .inr List.nil_prefix,
        fun _ => ⟨agreesAt_of_end (Nat.not_lt.mp hl) _, .inr List.nil_prefix⟩⟩

/-- A byte of the input. With the flag, it is the last one, and the output is the next one. -/
theorem scanEntry_putInput (c : UInt8) (unit : Bool) (fuel : Nat) (r : List UInt8) (isMatch : Bool)
    (l1 last : Nat) :
    scanEntry buf (fuel + 1) (putInput c (inputFlag unit) ++ r) isMatch l1 last =
      if unit then some (.entry r 1 (isMatch && agreesAt buf l1 c.toNat) (l1 + 1) (last + 1))
      else scanEntry buf fuel r (isMatch && agreesAt buf l1 c.toNat) (l1 + 1) last := by
  unfold putInput
  by_cases hc : 0x20 ≤ c ∧ c ≤ 0x7f
  · obtain ⟨hflag, hbyte, h0, h1, h2, h3⟩ := plain_input c unit hc
    rw [if_pos hc, List.singleton_append, scanEntry]
    dsimp only
    rw [hbyte, if_neg h0, if_neg h1, if_neg h2, if_neg h3]
    cases unit with
    | true =>
      rw [if_pos rfl]
      exact if_pos (hflag.mpr rfl)
    | false =>
      rw [if_neg Bool.false_ne_true]
      exact if_neg fun h => Bool.false_ne_true (hflag.mp h)
  · rw [if_neg hc, List.cons_append, scanEntry]
    have hword := readWord_putWord (show c.toNat < 65536 from Nat.lt_trans c.toNat_lt (by decide)) r
    have hbyte : (inputFlag unit ||| 0x1f) &&& 0x7f = 0x1f := by cases unit <;> decide
    dsimp only
    rw [hbyte, if_neg (by decide), if_neg (by decide), if_neg (by decide), if_pos rfl, hword]
    cases unit <;> rfl

theorem scanEntry_putInputs : ∀ (input : List UInt8) (fuel : Nat) (r : List UInt8) (isMatch : Bool)
    (l1 last : Nat),
    scanEntry buf (fuel + input.length) (putInputs false input ++ r) isMatch l1 last =
      scanEntry buf fuel r (isMatch && agreesFrom buf l1 input) (l1 + input.length) last := by
  intro input
  induction input with
  | nil =>
    intro fuel r isMatch l1 last
    rw [agreesFrom, Bool.and_true]
    rfl
  | cons c input ih =>
    intro fuel r isMatch l1 last
    have hput : putInputs false (c :: input) = putInput c (inputFlag false) ++ putInputs false input := by
      cases input with
      | nil => exact (List.append_nil _).symm
      | cons d input => rfl
    rw [hput, List.append_assoc, List.length_cons, ← Nat.add_assoc, scanEntry_putInput,
      if_neg Bool.false_ne_true, ih, agreesFrom, Bool.and_assoc,
      show l1 + 1 + input.length = l1 + (input.length + 1) by omega]

theorem scanEntry_putInputs_flagged : ∀ (input : List UInt8), input ≠ [] → ∀ (fuel : Nat)
    (r : List UInt8) (isMatch : Bool) (l1 last : Nat),
    scanEntry buf (fuel + input.length) (putInputs true input ++ r) isMatch l1 last =
      some (.entry r 1 (isMatch && agreesFrom buf l1 input) (l1 + input.length) (last + 1)) := by
  intro input
  induction input with
  | nil => intro h; exact absurd rfl h
  | cons c input ih =>
    intro _ fuel r isMatch l1 last
    cases input with
    | nil =>
      change scanEntry buf (fuel + 1) (putInput c (inputFlag true) ++ r) isMatch l1 last = _
      rw [scanEntry_putInput, if_pos rfl, agreesFrom, agreesFrom, Bool.and_true]
      rfl
    | cons d input =>
      change scanEntry buf (fuel + (d :: input).length + 1)
        (putInput c (inputFlag false) ++ putInputs true (d :: input) ++ r) isMatch l1 last = _
      have hagree : agreesFrom buf l1 (c :: d :: input)
          = (agreesAt buf l1 c.toNat && agreesFrom buf (l1 + 1) (d :: input)) := rfl
      have hlen : l1 + 1 + (d :: input).length = l1 + (c :: d :: input).length := by
        simp only [List.length_cons]
        omega
      rw [List.append_assoc, scanEntry_putInput, if_neg Bool.false_ne_true, ih (List.cons_ne_nil _ _),
        hagree, Bool.and_assoc, hlen]

/-! ## Output -/

theorem small_byte {n : Nat} (hn : 1 ≤ n) (hle : n ≤ 0x1d) :
    (UInt8.ofNat n &&& 0x80 = 0 ∧ UInt8.ofNat n &&& 0x7f = UInt8.ofNat n) ∧
      ((0x80 ||| UInt8.ofNat n) &&& 0x80 ≠ 0 ∧ (0x80 ||| UInt8.ofNat n) &&& 0x7f = UInt8.ofNat n) ∧
      UInt8.ofNat n ≠ 0 ∧ UInt8.ofNat n < 0x1e ∧ (UInt8.ofNat n).toNat = n := by
  have hall : ∀ n : Fin 0x1e, 1 ≤ n.val →
      (UInt8.ofNat n &&& 0x80 = 0 ∧ UInt8.ofNat n &&& 0x7f = UInt8.ofNat n) ∧
      ((0x80 ||| UInt8.ofNat n) &&& 0x80 ≠ 0 ∧ (0x80 ||| UInt8.ofNat n) &&& 0x7f = UInt8.ofNat n) ∧
      UInt8.ofNat n ≠ 0 ∧ UInt8.ofNat n < 0x1e ∧ (UInt8.ofNat n).toNat = n := by
    decide +kernel
  exact hall ⟨n, Nat.lt_succ_of_le hle⟩ hn

/-- The characters of an output behind the first one. -/
def putExtra (output : List UInt16) : List UInt8 := (output.drop 1).flatMap fun c => putWord c.toNat

theorem scanEntry_extra {olen : Nat} (holen : 1 < olen) (hle : olen ≤ 20) (fuel : Nat) (r : List UInt8)
    (isMatch : Bool) (l1 last : Nat) :
    scanEntry buf (fuel + 1) ((0x80 ||| UInt8.ofNat olen) :: r) isMatch l1 last =
      some (.entry r olen isMatch l1 last) := by
  obtain ⟨_, ⟨hflag, hbyte⟩, hne, hlt, hnat⟩ := small_byte (Nat.le_of_lt holen) (by omega)
  rw [scanEntry]
  dsimp only
  rw [hbyte, if_neg hne, if_pos hlt, if_pos hflag, hnat]

theorem scanEntry_output {c : Nat} (hc : c < 65536) (fuel : Nat) (r : List UInt8) (isMatch : Bool)
    (l1 last : Nat) :
    scanEntry buf (fuel + 1) (0x1e :: putWord c ++ r) isMatch l1 last = some (.entry r 1 isMatch l1 c) := by
  rw [List.cons_append, scanEntry]
  dsimp only
  rw [if_neg (by decide), if_neg (by decide), if_pos (by decide), readWord_putWord hc]
  rfl

theorem scanEntry_outputs {c : Nat} (hc : c < 65536) (fuel : Nat) (r : List UInt8) (isMatch : Bool)
    (l1 last : Nat) :
    scanEntry buf (fuel + 1) (0x9e :: putWord c ++ r) isMatch l1 last = scanEntry buf fuel r isMatch l1 c := by
  rw [List.cons_append, scanEntry]
  dsimp only
  rw [if_neg (by decide), if_neg (by decide), if_pos (by decide), readWord_putWord hc]
  rfl

theorem scanEntry_delta {d : Nat} (hd : 1 ≤ d) (hle : d ≤ 0x1d) (fuel : Nat) (r : List UInt8)
    (isMatch : Bool) (l1 last : Nat) :
    scanEntry buf (fuel + 1) (UInt8.ofNat d :: r) isMatch l1 last =
      some (.entry r 1 isMatch l1 (last + d)) := by
  obtain ⟨⟨hflag, hbyte⟩, _, hne, hlt, hnat⟩ := small_byte hd hle
  rw [scanEntry]
  dsimp only
  rw [hbyte, if_neg hne, if_pos hlt, if_neg (not_not_intro hflag), hnat]

/-! ## Entries -/

/-- The bytes of the input that are written. -/
def MapForm.written (form : MapForm) (ip : InputEntry) : List UInt8 :=
  (ip.input.take (form.len ip)).drop form.first

/-- An entry that can be written: its output has from 1 to 20 characters. -/
def InputEntry.HasOutput (ip : InputEntry) : Prop := 1 ≤ ip.output.length ∧ ip.output.length ≤ 20

theorem output0_lt (ip : InputEntry) : ip.output0 < 65536 := (ip.output.headD 0).toNat_lt

/-- The reader, behind the bytes of the input, is at the output. It comes to the right character if
its last output was that of the entry before. -/
def ReadsOutput (buf : List Nat) (ip : InputEntry) (last : Nat) (bytes : List UInt8) : Prop :=
  ∀ (fuel : Nat) (r : List UInt8) (isMatch : Bool) (l1 lastOutputc : Nat), ∃ last',
    (lastOutputc = last → last' = ip.output0) ∧
      scanEntry buf (fuel + 2) (bytes ++ r) isMatch l1 lastOutputc =
        some (.entry (putExtra ip.output ++ r) ip.output.length isMatch l1 last')

variable {ip : InputEntry} {form : MapForm}

theorem ReadsOutput.several (hout : ip.HasOutput) {last : Nat} (h : 1 < ip.output.length) :
    ReadsOutput buf ip last (putOutput form ((ip.output0 : Int) - last) ip) := by
  intro fuel r isMatch l1 lastOutputc
  unfold putOutput
  rw [if_pos h]
  by_cases hdelta : (ip.output0 : Int) - last ≠ 0
  · refine ⟨ip.output0, fun _ => rfl, ?_⟩
    rw [if_pos hdelta, List.append_assoc, scanEntry_outputs (output0_lt ip), List.cons_append,
      scanEntry_extra h hout.2]
    rfl
  · refine ⟨lastOutputc, fun heq => by omega, ?_⟩
    rw [if_neg hdelta, List.nil_append, List.cons_append, scanEntry_extra h hout.2]
    rfl

theorem ReadsOutput.single {last : Nat} (h : ip.output.length = 1)
    (hdelta : (ip.output0 : Int) - last = 1 → form.first = form.len ip) :
    ReadsOutput buf ip last (putOutput form ((ip.output0 : Int) - last) ip) := by
  intro fuel r isMatch l1 lastOutputc
  have hextra : putExtra ip.output = [] := by
    obtain ⟨c, hc⟩ := List.length_eq_one_iff.mp h
    rw [hc]
    rfl
  unfold putOutput
  rw [if_neg (by omega), hextra, h, List.nil_append]
  dsimp only
  have hne : (if form.first = form.len ip then 0 else (ip.output0 : Int) - last) ≠ 1 := by
    split
    · decide
    next hlen => exact fun h1 => hlen (hdelta h1)
  rw [if_pos hne]
  by_cases hsmall : 1 ≤ (if form.first = form.len ip then 0 else (ip.output0 : Int) - last) ∧
    (if form.first = form.len ip then 0 else (ip.output0 : Int) - last) ≤ 0x1d
  · have hlen : ¬form.first = form.len ip := fun heq => by
      rw [if_pos heq] at hsmall
      exact absurd hsmall.1 (by decide)
    rw [if_pos hsmall, if_neg hlen]
    rw [if_neg hlen] at hsmall
    refine ⟨lastOutputc + ((ip.output0 : Int) - last).toNat, fun heq => by omega, ?_⟩
    exact scanEntry_delta (by omega) (by omega) _ _ _ _ _
  · rw [if_neg hsmall]
    exact ⟨ip.output0, fun _ => rfl, scanEntry_output (output0_lt ip) _ _ _ _ _⟩

theorem written_of_first_eq (h : form.first = form.len ip) : form.written ip = [] := by
  unfold MapForm.written
  rw [h]
  exact List.drop_eq_nil_of_le (List.length_take_le _ _)

/-- An entry is read back: the bytes of its input are compared with what has been typed, and the
pointer is at the rest of the output. -/
theorem scanEntry_putEntry (buf : List Nat) (hout : ip.HasOutput) {last : Nat} (hne : putEntry form last ip ≠ [])
    {fuel : Nat} (hfuel : (form.written ip).length + 2 ≤ fuel) (r : List UInt8) (l1 lastOutputc : Nat) :
    ∃ last', (lastOutputc = last → last' = ip.output0) ∧
      scanEntry buf fuel (putEntry form last ip ++ r) true l1 lastOutputc =
        some (.entry (putExtra ip.output ++ r) ip.output.length (agreesFrom buf l1 (form.written ip))
          (l1 + (form.written ip).length) last') := by
  obtain ⟨fuel, rfl⟩ : ∃ k, fuel = k + 2 + (form.written ip).length :=
    ⟨fuel - 2 - (form.written ip).length, by omega⟩
  -- behind the bytes of the input, if none is flagged
  have hread : ReadsOutput buf ip last (putOutput form ((ip.output0 : Int) - last) ip) →
      putInputs (decide ((ip.output0 : Int) - last = 1 ∧ ip.output.length = 1)) (form.written ip)
        = putInputs false (form.written ip) → ∃ last', (lastOutputc = last → last' = ip.output0) ∧
      scanEntry buf (fuel + 2 + (form.written ip).length) (putEntry form last ip ++ r) true l1 lastOutputc =
        some (.entry (putExtra ip.output ++ r) ip.output.length (agreesFrom buf l1 (form.written ip))
          (l1 + (form.written ip).length) last') := by
    intro hreads hinputs
    obtain ⟨last', hlast, hscan⟩ := hreads fuel r (agreesFrom buf l1 (form.written ip))
      (l1 + (form.written ip).length) lastOutputc
    refine ⟨last', hlast, ?_⟩
    unfold putEntry
    dsimp only
    rw [← MapForm.written, hinputs, List.append_assoc, scanEntry_putInputs, Bool.true_and]
    exact hscan
  by_cases hunit : (ip.output0 : Int) - last = 1 ∧ ip.output.length = 1
  · by_cases hlen : form.first = form.len ip
    · refine hread (.single hunit.2 fun _ => hlen) ?_
      rw [written_of_first_eq hlen]
      rfl
    · have hempty : putOutput form ((ip.output0 : Int) - last) ip = [] := by
        unfold putOutput
        rw [if_neg (by omega)]
        dsimp only
        rw [if_neg hlen, if_neg (not_not_intro hunit.1)]
      have hbytes : putEntry form last ip = putInputs true (form.written ip) := by
        unfold putEntry
        dsimp only
        rw [hempty, decide_eq_true hunit, List.append_nil]
        rfl
      have hwritten : form.written ip ≠ [] := by
        intro hnil
        rw [hbytes, hnil] at hne
        exact hne rfl
      have hextra : putExtra ip.output = [] := by
        obtain ⟨c, hc⟩ := List.length_eq_one_iff.mp hunit.2
        rw [hc]
        rfl
      refine ⟨lastOutputc + 1, fun heq => by omega, ?_⟩
      rw [hbytes, scanEntry_putInputs_flagged _ hwritten, Bool.true_and, hextra, hunit.2]
      rfl
  · have hinputs : putInputs (decide ((ip.output0 : Int) - last = 1 ∧ ip.output.length = 1))
        (form.written ip) = putInputs false (form.written ip) := by
      rw [decide_eq_false hunit]
    by_cases hseveral : 1 < ip.output.length
    · exact hread (.several hout hseveral) hinputs
    · have hone : ip.output.length = 1 := Nat.le_antisymm (Nat.not_lt.mp hseveral) hout.1
      exact hread (.single hone fun h1 => absurd ⟨h1, hone⟩ hunit) hinputs

end Scanning

/-! ## An entry that leaves nothing -/

/-- The map has a space alone for an input, and neither the start table nor what is left out of the
input leaves a byte of it to be written. -/
def MapForm.Loses (form : MapForm) (ip : InputEntry) : Prop :=
  form.genTable = true ∧ form.isChineseCj = true ∧ ip.input = [32]

instance decidableLoses (form : MapForm) (ip : InputEntry) : Decidable (form.Loses ip) :=
  inferInstanceAs (Decidable (_ ∧ _))

/-- An input that can be written: it is not empty, and ends in the space that is left out. -/
def MapForm.HasInput (form : MapForm) (ip : InputEntry) : Prop :=
  ip.input ≠ [] ∧ (form.isChineseCj = true → ip.input.getLast? = some 32)

theorem first_le_len {form : MapForm} {ip : InputEntry} (hin : form.HasInput ip)
    (hloses : ¬form.Loses ip) : form.first ≤ form.len ip := by
  have hpos : 1 ≤ ip.input.length := List.length_pos_iff.mpr hin.1
  unfold MapForm.first MapForm.len
  cases htable : form.genTable with
  | false => exact Nat.zero_le _
  | true =>
    cases hcj : form.isChineseCj with
    | false => exact hpos
    | true =>
      change 1 ≤ ip.input.length - 1
      by_contra hshort
      obtain ⟨c, hc⟩ := List.length_eq_one_iff.mp (show ip.input.length = 1 by omega)
      have hlast := hin.2 hcj
      rw [hc] at hlast
      obtain rfl := Option.some.inj hlast
      exact hloses ⟨htable, hcj, hc⟩

theorem putInput_ne_nil (c d : UInt8) : putInput c d ≠ [] := by
  unfold putInput
  split <;> exact List.cons_ne_nil _ _

theorem putInputs_ne_nil {unit : Bool} {input : List UInt8} (h : input ≠ []) : putInputs unit input ≠ [] := by
  rcases input with _ | ⟨c, _ | ⟨d, input⟩⟩
  · exact absurd rfl h
  · exact putInput_ne_nil _ _
  · exact fun hnil => putInput_ne_nil _ _ (List.append_eq_nil_iff.mp hnil).1

theorem length_written {form : MapForm} {ip : InputEntry} :
    (form.written ip).length = form.len ip - form.first := by
  have hle : form.len ip ≤ ip.input.length := by
    unfold MapForm.len
    split <;> omega
  unfold MapForm.written
  rw [List.length_drop, List.length_take, Nat.min_eq_left hle]

/-- Where the output is not written, the input is: it has the flag. -/
theorem putEntry_ne_nil {form : MapForm} {ip : InputEntry} (hin : form.HasInput ip)
    (hloses : ¬form.Loses ip) (last : Nat) : putEntry form last ip ≠ [] := by
  have hle := first_le_len hin hloses
  intro hnil
  unfold putEntry at hnil
  dsimp only at hnil
  rw [← MapForm.written] at hnil
  obtain ⟨hinputs, houtput⟩ := List.append_eq_nil_iff.mp hnil
  have hwritten : form.written ip = [] := by
    by_contra hne
    exact putInputs_ne_nil hne hinputs
  have hlen : form.first = form.len ip := by
    have hzero := congrArg List.length hwritten
    rw [length_written] at hzero
    exact Nat.le_antisymm hle (Nat.le_of_sub_eq_zero hzero)
  unfold putOutput at houtput
  dsimp only at houtput
  rw [if_pos hlen] at houtput
  split at houtput
  · exact List.cons_ne_nil _ _ (List.append_eq_nil_iff.mp houtput).2
  · rw [if_pos (by decide), if_neg (by decide)] at houtput
    exact List.cons_ne_nil _ _ houtput

end Qemacs
