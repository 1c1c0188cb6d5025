import Qemacs.Input.Entry

/-!
# A section of a packed map

The entries of a section are read one after another, and each that agrees with what has been typed is
counted. What is counted at the end is what the words of the section tell, as long as every entry leaves
something to be read.
-/

namespace Qemacs

open Lib

/-- The entries of a section, behind an output `last`. -/
def putSection (form : MapForm) : Nat → List InputEntry → List UInt8
  | _, [] => []
  | last, ip :: ips => putEntry form last ip ++ putSection form ip.output0 ips

/-- The input, as it is typed. -/
def InputEntry.word (ip : InputEntry) : List Nat := ip.input.map UInt8.toNat

/-- An entry of the map: what is typed, and what it stands for. -/
def InputEntry.pair (ip : InputEntry) : List Nat × List UInt16 := (ip.word, ip.output)

theorem length_word (ip : InputEntry) : ip.word.length = ip.input.length := List.length_map ..

/-! ## One entry -/

section Reading

variable {form : MapForm} {buf : List Nat}

theorem length_putExtra (output : List UInt16) : (putExtra output).length = (output.length - 1) * 2 := by
  unfold putExtra
  rw [List.length_flatMap, ← List.length_drop]
  generalize output.drop 1 = l
  induction l with
  | nil => rfl
  | cons c l ih =>
    rw [List.map_cons, List.sum_cons, ih, List.length_cons]
    change 2 + _ = _
    omega

/-- Whether the entry agrees with what has been typed, as the loop finds out. -/
def matchesEntry (form : MapForm) (buf : List Nat) (ip : InputEntry) : Bool :=
  agreesFrom buf form.first (form.written ip) &&
    (!form.isChineseCj || agreesAt buf (form.first + (form.written ip).length) 32)

/-- The length of the input, as the loop counts it. -/
def countedLength (form : MapForm) (ip : InputEntry) : Nat :=
  if form.isChineseCj then form.first + (form.written ip).length + 1
  else form.first + (form.written ip).length

theorem length_putInputs (unit : Bool) : ∀ input : List UInt8,
    input.length ≤ (putInputs unit input).length := by
  intro input
  induction input with
  | nil => exact Nat.le_refl _
  | cons c input ih =>
    have hone : ∀ d, 1 ≤ (putInput c d).length := fun d =>
      List.length_pos_iff.mpr (putInput_ne_nil c d)
    cases input with
    | nil => exact hone _
    | cons d input =>
      rw [putInputs, List.length_append, List.length_cons]
      have := hone 0
      omega

variable {ip : InputEntry}

theorem kmapLoop_putEntry (buf : List Nat) (hout : ip.HasOutput) {last : Nat} (hne : putEntry form last ip ≠ [])
    (fuel : Nat) {r : List UInt8} (hr : r ≠ []) (lastOutputc : Nat) (m : Match) :
    ∃ last', (lastOutputc = last → last' = ip.output0) ∧
      kmapLoop buf form.isChineseCj form.first (fuel + 1) (putEntry form last ip ++ r) lastOutputc m =
        kmapLoop buf form.isChineseCj form.first fuel r last'
          (if matchesEntry form buf ip then
            m.update buf.length (countedLength form ip) last' ip.output.length (putExtra ip.output ++ r)
          else m) := by
  have hfuel : (form.written ip).length + 2 ≤ (putEntry form last ip ++ r).length + 1 := by
    have hinputs := length_putInputs (decide ((ip.output0 : Int) - last = 1 ∧ ip.output.length = 1))
      (form.written ip)
    have hpos : 1 ≤ r.length := List.length_pos_iff.mpr hr
    rw [List.length_append]
    unfold putEntry
    dsimp only
    rw [← MapForm.written, List.length_append]
    omega
  obtain ⟨last', hlast, hscan⟩ := scanEntry_putEntry buf hout hne hfuel r form.first lastOutputc
  refine ⟨last', hlast, ?_⟩
  have hdrop : (putExtra ip.output ++ r).drop ((ip.output.length - 1) <<< 1) = r := by
    have hlen : (ip.output.length - 1) <<< 1 = (putExtra ip.output).length := by
      rw [length_putExtra, Nat.shiftLeft_eq]
    rw [hlen, List.drop_left]
  rw [kmapLoop, hscan]
  change kmapLoop _ _ _ _ (List.drop _ _) _ _ = _
  rw [hdrop]
  rfl

/-! ## What is counted -/

/-- What has been typed starts with the byte that the section is found by. -/
def LeadsTo (form : MapForm) (buf : List Nat) (ip : InputEntry) : Prop :=
  form.genTable = true → buf.head? = some ip.input0.toNat

theorem input_parts (hin : form.HasInput ip) (hloses : ¬form.Loses ip) :
    ip.input = ip.input.take form.first ++ form.written ip ++ (if form.isChineseCj then [32] else []) := by
  have hle := first_le_len hin hloses
  have hstart : ip.input.take form.first ++ form.written ip = ip.input.take (form.len ip) := by
    unfold MapForm.written
    conv_rhs => rw [← List.take_append_drop form.first (ip.input.take (form.len ip))]
    rw [List.take_take, Nat.min_eq_left hle]
  rw [hstart]
  unfold MapForm.len
  by_cases hcj : form.isChineseCj = true
  · have hlast := hin.2 hcj
    rw [if_pos hcj, if_pos hcj, ← List.dropLast_eq_take]
    have hget : ip.input.getLast hin.1 = 32 := by
      rw [List.getLast?_eq_some_getLast hin.1] at hlast
      exact Option.some.inj hlast
    rw [← hget, List.dropLast_append_getLast]
  · rw [if_neg hcj, if_neg hcj, List.take_length, List.append_nil]

theorem first_agrees (hin : form.HasInput ip) (hlead : LeadsTo form buf ip) :
    agreesFrom buf 0 (ip.input.take form.first) = true := by
  unfold MapForm.first
  by_cases htable : form.genTable = true
  · rw [if_pos htable]
    rcases hinput : ip.input with _ | ⟨c, l⟩
    · exact absurd hinput hin.1
    · have hhead := hlead htable
      rw [InputEntry.input0, hinput] at hhead
      rw [List.take_succ_cons, List.take_zero, agreesFrom, agreesFrom, Bool.and_true, agreesAt, ← List.head?_eq_getElem?,
        hhead]
      exact beq_self_eq_true _
  · rw [if_neg htable]
    rfl

/-- The loop finds out whether an entry agrees with what has been typed, and its length. -/
theorem matchesEntry_iff (hin : form.HasInput ip) (hloses : ¬form.Loses ip) (hlead : LeadsTo form buf ip) :
    (matchesEntry form buf ip = true ↔ Agrees ip.word buf) ∧ countedLength form ip = ip.word.length := by
  have hparts := input_parts hin hloses
  have hfirst : (ip.input.take form.first).length = form.first := by
    have hle := first_le_len hin hloses
    have hlen : form.len ip ≤ ip.input.length := by
      unfold MapForm.len
      split <;> omega
    rw [List.length_take, Nat.min_eq_left (Nat.le_trans hle hlen)]
  constructor
  · have hagree : matchesEntry form buf ip = agreesFrom buf 0 ip.input := by
      rw [hparts, agreesFrom_append, agreesFrom_append, first_agrees hin hlead, Bool.true_and,
        List.length_append, hfirst, Nat.zero_add, Nat.zero_add]
      unfold matchesEntry
      cases form.isChineseCj with
      | true =>
        rw [if_pos rfl, agreesFrom, agreesFrom, Bool.and_true]
        rfl
      | false => rfl
    rw [hagree, agreesFrom_iff]
    rfl
  · rw [length_word, hparts, List.length_append, List.length_append, hfirst]
    unfold countedLength
    cases form.isChineseCj <;> rfl

/-- The best match is what is known of the words. -/
structure Match.Shows (m : Match) (b : Best (List UInt16)) : Prop where
  len : m.matchLen = b.len
  real : m.matchRealLen = b.real
  count : m.matchCount = b.count
  value : ∀ v, b.value = some v →
    m.matchChar = (v.headD 0).toNat ∧ m.matchOlen = v.length ∧ ∃ r, m.matchExtra = putExtra v ++ r

theorem Match.Shows.init : Match.Shows {} {} :=
  ⟨rfl, rfl, rfl, fun _ h => nomatch h⟩

theorem Match.Shows.update {m : Match} {b : Best (List UInt16)} (h : m.Shows b) (ha : Agrees ip.word buf)
    (r : List UInt8) :
    (m.update buf.length ip.word.length ip.output0 ip.output.length (putExtra ip.output ++ r)).Shows
      (b.add buf ip.pair) := by
  unfold Match.update Best.add
  dsimp only
  rw [if_pos (show Agrees ip.pair.1 buf from ha), h.len]
  change Match.Shows
    (if overlap ip.word buf = b.len then _ else if b.len < overlap ip.word buf then _ else _)
    (if overlap ip.word buf = b.len then _ else if b.len < overlap ip.word buf then _ else _)
  by_cases heq : overlap ip.word buf = b.len
  · rw [if_pos heq, if_pos heq]
    exact ⟨rfl, h.real, congrArg (· + 1) h.count, h.value⟩
  · rw [if_neg heq, if_neg heq]
    by_cases hlt : b.len < overlap ip.word buf
    · rw [if_pos hlt, if_pos hlt]
      refine ⟨rfl, rfl, rfl, fun v hv => ?_⟩
      obtain rfl : ip.output = v := Option.some.inj hv
      exact ⟨rfl, rfl, r, rfl⟩
    · rw [if_neg hlt, if_neg hlt]
      exact h

/-- An entry that can be written. -/
structure MapForm.Writes (form : MapForm) (ip : InputEntry) : Prop where
  input : form.HasInput ip
  output : ip.HasOutput

theorem Match.Shows.next {m : Match} {b : Best (List UInt16)} (h : m.Shows b) {ip : InputEntry}
    (hin : form.HasInput ip) (hloses : ¬form.Loses ip) (hlead : LeadsTo form buf ip) (r : List UInt8) :
    (if matchesEntry form buf ip then
      m.update buf.length (countedLength form ip) ip.output0 ip.output.length (putExtra ip.output ++ r)
      else m).Shows (b.add buf ip.pair) := by
  obtain ⟨hmatch, hlen⟩ := matchesEntry_iff hin hloses hlead
  by_cases ha : Agrees ip.word buf
  · rw [if_pos (hmatch.mpr ha), hlen]
    exact h.update ha r
  · rw [if_neg fun hx => ha (hmatch.mp hx)]
    unfold Best.add
    rw [if_neg (show ¬Agrees ip.pair.1 buf from ha)]
    exact h

theorem kmapLoop_putSection (r : List UInt8) : ∀ (ips : List InputEntry),
    (∀ ip ∈ ips, form.Writes ip ∧ ¬form.Loses ip ∧ LeadsTo form buf ip) → ∀ (fuel last : Nat) (m : Match)
    (b : Best (List UInt16)), (putSection form last ips).length < fuel → m.Shows b →
    ∃ m', kmapLoop buf form.isChineseCj form.first fuel (putSection form last ips ++ 0 :: r) last m
        = some m' ∧ m'.Shows ((ips.map InputEntry.pair).foldl (Best.add buf) b) := by
  intro ips
  induction ips with
  | nil =>
    intro _ fuel last m b hfuel h
    obtain ⟨fuel, rfl⟩ := Nat.exists_eq_succ_of_ne_zero (Nat.ne_zero_of_lt hfuel)
    exact ⟨m, rfl, h⟩
  | cons ip ips ih =>
    intro hall fuel last m b hfuel h
    obtain ⟨fuel, rfl⟩ := Nat.exists_eq_succ_of_ne_zero (Nat.ne_zero_of_lt hfuel)
    obtain ⟨hwrites, hloses, hlead⟩ := hall ip List.mem_cons_self
    have hne := putEntry_ne_nil hwrites.input hloses last
    have hr : putSection form ip.output0 ips ++ 0 :: r ≠ [] :=
      List.append_ne_nil_of_right_ne_nil _ (List.cons_ne_nil _ _)
    obtain ⟨last', hlast, hloop⟩ := kmapLoop_putEntry buf hwrites.output hne fuel hr last m
    obtain rfl := hlast rfl
    have hpos : 1 ≤ (putEntry form last ip).length := List.length_pos_iff.mpr hne
    rw [putSection, List.length_append] at hfuel
    rw [putSection, List.append_assoc, hloop]
    exact ih (fun ip' hip => hall ip' (List.mem_cons_of_mem ip hip)) fuel _ _ _ (by omega)
      (h.next hwrites.input hloses hlead _)

/-! ## The result -/

/-- What `kmap_input` returns for an answer. -/
def InputMethodResult.ofAnswer : Answer (List UInt16) → InputMethodResult
  | .noMatch => .noMatch
  | .moreChars => .moreChars
  | .found output len => .found output.length (output.map UInt16.toNat) len

theorem readOutputs_putExtra (r : List UInt8) : ∀ (l : List UInt16),
    readOutputs l.length ((l.flatMap fun c => putWord c.toNat) ++ r) = some (l.map UInt16.toNat) := by
  intro l
  induction l with
  | nil => rfl
  | cons c l ih =>
    rw [List.flatMap_cons, List.append_assoc, List.length_cons, readOutputs, readWord_putWord c.toNat_lt]
    change (readOutputs l.length _ >>= _) = _
    rw [ih]
    rfl

theorem Match.Shows.result {m : Match} {b : Best (List UInt16)} (h : m.Shows b)
    {D : List (List Nat × List UInt16)} (hb : Best.Of D buf b)
    (hD : ∀ e ∈ D, 1 ≤ e.2.length ∧ e.2.length ≤ 20) {matchBufSize : Nat} (hsize : 20 ≤ matchBufSize) :
    m.result matchBufSize buf.length = some (.ofAnswer (b.answer buf)) := by
  unfold Match.result Best.answer
  rcases hval : b.value with _ | v
  · rw [if_pos (h.len.trans (hb.none_ hval))]
    rfl
  · obtain ⟨hlen, e, he, hev, _⟩ := hb.value v hval
    have hv := hD e (mem_furthest.mp he).1
    rw [hev] at hv
    obtain ⟨hchar, holen, r, hextra⟩ := h.value v hval
    rw [if_neg (show ¬m.matchLen = 0 from h.len ▸ hlen), h.count, h.real]
    dsimp only
    by_cases hmore : 1 < b.count ∨ buf.length < b.real
    · rw [if_pos hmore, if_pos hmore]
      rfl
    · rw [if_neg hmore, if_neg hmore, if_pos (show matchBufSize > 0 by omega), holen,
        Nat.min_eq_left (show v.length ≤ matchBufSize by omega), hextra, hchar, h.len]
      obtain ⟨c, v, rfl⟩ := List.exists_cons_of_length_pos hv.1
      have hread := readOutputs_putExtra r v
      change (readOutputs v.length _ >>= _) = _
      rw [show putExtra (c :: v) ++ r = (v.flatMap fun c => putWord c.toNat) ++ r from rfl, hread]
      rfl

/-! ## A text that no entry agrees with -/

/-- A space, and a character that is not a byte: no entry agrees with them if its first byte is in the
start table and it is taken to end in a space. -/
theorem not_matchesEntry (htable : form.genTable = true) (hcj : form.isChineseCj = true)
    (ip : InputEntry) : matchesEntry form [32, 256] ip = false := by
  have hfirst : form.first = 1 := if_pos htable
  unfold matchesEntry
  rw [hfirst, hcj]
  rcases form.written ip with _ | ⟨c, l⟩
  · rfl
  · have hc : agreesAt [32, 256] 1 c.toNat = false :=
      beq_false_of_ne (Nat.ne_of_gt (Nat.lt_of_lt_of_le c.toNat_lt (Nat.le_refl 256)))
    rw [agreesFrom, hc]
    rfl

/-- The loop then counts nothing, whether entries have been lost or not. -/
theorem kmapLoop_noMatch (htable : form.genTable = true) (hcj : form.isChineseCj = true)
    (r : List UInt8) : ∀ (ips : List InputEntry), (∀ ip ∈ ips, ip.HasOutput) →
    ∀ (fuel last lastOutputc : Nat) (m : Match), (putSection form last ips).length < fuel →
    kmapLoop [32, 256] form.isChineseCj form.first fuel (putSection form last ips ++ 0 :: r) lastOutputc m
      = some m := by
  intro ips
  induction ips with
  | nil =>
    intro _ fuel last lastOutputc m hfuel
    obtain ⟨fuel, rfl⟩ := Nat.exists_eq_succ_of_ne_zero (Nat.ne_zero_of_lt hfuel)
    rfl
  | cons ip ips ih =>
    intro hall fuel last lastOutputc m hfuel
    have hrest := ih fun ip' hip => hall ip' (List.mem_cons_of_mem ip hip)
    by_cases hlost : putEntry form last ip = []
    · rw [putSection, hlost, List.nil_append] at hfuel ⊢
      exact hrest fuel _ lastOutputc m hfuel
    · obtain ⟨fuel, rfl⟩ := Nat.exists_eq_succ_of_ne_zero (Nat.ne_zero_of_lt hfuel)
      have hr : putSection form ip.output0 ips ++ 0 :: r ≠ [] :=
        List.append_ne_nil_of_right_ne_nil _ (List.cons_ne_nil _ _)
      obtain ⟨last', _, hloop⟩ := kmapLoop_putEntry [32, 256] (hall ip List.mem_cons_self) hlost fuel hr
        lastOutputc m
      have hpos : 1 ≤ (putEntry form last ip).length := List.length_pos_iff.mpr hlost
      rw [putSection, List.length_append] at hfuel
      rw [putSection, List.append_assoc, hloop, not_matchesEntry htable hcj, if_neg Bool.false_ne_true]
      exact hrest fuel _ last' m (by omega)

end Reading

end Qemacs
