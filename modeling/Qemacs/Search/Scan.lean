import Qemacs.Lib.Compare
import Qemacs.Search.Engine

/-!
# What the search examines

The comparison at a candidate is an instance of `Lib.comparePattern`, so that what it comes to depends on where a
match of the pattern stops. The loops over the candidates are then one scan, forwards or backwards, with
the step of the loop: `ScanForward`, `ScanBack`. Both end, as every step makes progress.
-/

namespace Qemacs

open Lib

/-! ## Progress -/

/-- A step forward is one, wherever there is something to read. -/
structure CharReader.Progress (v : CharReader) : Prop where
  next : ∀ o : Int, o < v.totalSize → o < v.next o
  nonneg : ∀ o : Int, 0 ≤ v.next o
  prev : ∀ o : Int, 0 < o → v.prev o < o
  start : ∀ o : Int, o ≤ 0 → v.prev o = 0

theorem DecodeStateC.reader_progress (s : DecodeStateC) (mem : Uninit) (text : List UInt8) :
    (s.reader mem text).Progress := by
  refine ⟨fun o ho => ?_, fun o => ?_, fun o ho => ?_, fun o ho => ?_⟩
  · rw [reader_totalSize] at ho
    rcases Int.lt_or_le o 0 with hneg | hpos
    · rw [CharReader.next, reader_nextc_outside (.inl hneg)]
      simp only []
      omega
    · obtain ⟨k, rfl⟩ := Int.eq_ofNat_of_zero_le hpos
      exact reader_nextc_advances (by omega)
  · rcases Int.lt_or_le o 0 with hneg | hpos
    · rw [CharReader.next, reader_nextc_outside (.inl hneg)]
      simp only []
      omega
    · obtain ⟨k, rfl⟩ := Int.eq_ofNat_of_zero_le hpos
      rcases Nat.lt_or_ge k text.length with hlt | hge
      · have := @reader_nextc_advances s mem text k hlt
        omega
      · rw [CharReader.next, reader_nextc_outside (.inr (by omega))]
        simp only []
        omega
  · obtain ⟨k, rfl⟩ := Int.eq_ofNat_of_zero_le (Int.le_of_lt ho)
    exact reader_prevc_retreats (by omega)
  · rw [CharReader.prev, reader_prevc_start ho]

/-- What a comparison reads at an offset: a character, if it is before the end of the buffer. -/
def CharReader.readChar (v : CharReader) (offset : Int) : Option (Nat × Int) :=
  if offset ≥ v.totalSize then none else some (v.nextc offset)

def CharReader.readByte (v : CharReader) (offset : Int) : Option (Nat × Int) :=
  if offset < v.totalSize then some (toChar32 (v.readOneByte offset), offset + 1) else none

def CharReader.left (v : CharReader) (offset : Int) : Nat := (v.totalSize - offset).toNat

theorem CharReader.Progress.left_readChar {v : CharReader} (hv : v.Progress) :
    ∀ o c o', v.readChar o = some (c, o') → v.left o' < v.left o := by
  intro o c o' h
  rw [readChar] at h
  split at h
  · cases h
  · rename_i ho
    have hnext := hv.next o (by omega)
    rw [CharReader.next, Option.some.inj h] at hnext
    rw [left, left]
    simp only [] at hnext
    omega

theorem CharReader.left_readByte {v : CharReader} :
    ∀ o c o', v.readByte o = some (c, o') → v.left o' < v.left o := by
  intro o c o' h
  rw [readByte] at h
  split at h
  · cases h
    rw [left, left]
    omega
  · cases h

namespace SearchArgs

variable {a : SearchArgs} {t : CaseTables}

/-! ## Candidates -/

/-- The match from `offset` to `stop` is not a word. -/
def wordRejects (a : SearchArgs) (offset stop : Int) : Bool :=
  a.flags.word && (qeIsword (a.v.prevc offset).1 || qeIsword (a.v.nextc stop).1)

/-- Where the match of the pattern at `offset` stops. -/
def plainStop (a : SearchArgs) (t : CaseTables) (offset : Int) : Option Int :=
  matchStop a.v.readChar (a.sameChar t) a.buf a.len 0 (a.v.nextc offset).1 (a.v.nextc offset).2

/-- The match of the pattern at `offset`, if the search takes it. -/
def plainTakes (a : SearchArgs) (t : CaseTables) (offset : Int) : Option Int :=
  (a.plainStop t offset).filter fun stop => !a.wordRejects offset stop && a.accepts stop

/-- Where the match of the pattern with the bytes at `offset` stops. -/
def hexStop (a : SearchArgs) (offset : Int) : Option Int :=
  (a.v.readByte offset).bind fun r => matchStop a.v.readByte (· == ·) a.buf a.len 0 r.1 r.2

def hexTakes (a : SearchArgs) (offset : Int) : Option Int := (a.hexStop offset).filter a.accepts

/-- The comparison at `offset` keeps to the pattern: a match is taken, or rejected, or is at the end of
the buffer. -/
def PlainKeeps (a : SearchArgs) (t : CaseTables) (offset : Int) : Prop :=
  ∀ stop, a.plainStop t offset = some stop →
    a.wordRejects offset stop = true ∨ a.accepts stop = true ∨ (a.v.totalSize : Int) ≤ stop

def HexKeeps (a : SearchArgs) (offset : Int) : Prop :=
  ∀ stop, a.hexStop offset = some stop → a.accepts stop = true ∨ (a.v.totalSize : Int) ≤ stop

theorem plainCompare_eq (offset : Int) : ∀ (fuel pos c : Nat) (offset2 : Int),
    a.plainCompare t offset fuel pos c offset2 = comparePattern a.v.readChar (a.sameChar t)
      (a.wordRejects offset) a.accepts a.buf a.len fuel pos c offset2 := by
  intro fuel
  induction fuel with
  | zero => intro pos c offset2; rfl
  | succ fuel ih =>
    intro pos c offset2
    have hreject : (pos + 1 ≥ a.len ∧ a.flags.word ∧
        (qeIsword (a.v.prevc offset).1 ∨ qeIsword (a.v.nextc offset2).1)) ↔
        (pos + 1 ≥ a.len ∧ a.wordRejects offset offset2) := by
      rw [wordRejects, Bool.and_eq_true, Bool.or_eq_true]
    rw [plainCompare, comparePattern]
    simp only [hreject]
    split
    · rfl
    split
    · rfl
    split
    · rfl
    rw [CharReader.readChar]
    split
    · rfl
    · exact ih _ _ _

theorem hexCompare_eq : ∀ {fuel pos : Nat} {offset2 : Int}, a.v.left offset2 < fuel →
    a.hexCompare fuel pos offset2 = (a.v.readByte offset2).elim (some (pos, none)) fun r =>
      comparePattern a.v.readByte (· == ·) (fun _ => false) a.accepts a.buf a.len fuel pos r.1 r.2 := by
  intro fuel
  induction fuel with
  | zero => intro pos offset2 h; exact absurd h (Nat.not_lt_zero _)
  | succ fuel ih =>
    intro pos offset2 hfuel
    rw [hexCompare]
    by_cases hin : offset2 < a.v.totalSize
    · have hread : a.v.readByte offset2 = some (toChar32 (a.v.readOneByte offset2), offset2 + 1) := by
        rw [CharReader.readByte, if_pos hin]
      have hless := CharReader.left_readByte offset2 _ _ hread
      rw [if_pos hin, hread]
      simp only [Option.elim_some, ne_eq, comparePattern, beq_iff_eq, Bool.false_eq_true, and_false, if_false]
      split
      · rfl
      split
      · rfl
      rw [ih (by omega)]
      cases a.v.readByte (offset2 + 1) <;> rfl
    · rw [if_neg hin, CharReader.readByte, if_neg hin, Option.elim_none]

theorem accepts_behind {o o' : Int} (hlt : o < o') (h : a.accepts o' = true) : a.accepts o = true := by
  rw [accepts, Bool.or_eq_true, decide_eq_true_eq, decide_eq_true_eq] at h ⊢
  omega

theorem plainCompare_spec (hv : a.v.Progress) (hlen : 0 < a.len) (offset : Int) :
    ∃ k, a.plainCompare t offset (a.v.totalSize + 2) 0 (a.v.nextc offset).1 (a.v.nextc offset).2
        = some (k, a.plainTakes t offset) ∧ (k ≤ a.len ↔ a.PlainKeeps t offset) := by
  obtain ⟨n, hn⟩ : ∃ n, 0 + (n + 1) = a.len := ⟨a.len - 1, by omega⟩
  have hnonneg : 0 ≤ (a.v.nextc offset).2 := hv.nonneg offset
  have hfuel : a.v.left (a.v.nextc offset).2 < a.v.totalSize + 2 := by
    rw [CharReader.left]
    omega
  have haccept : ∀ s c s', a.v.readChar s = some (c, s') → a.accepts s' → a.accepts s :=
    fun s c s' h hacc => accepts_behind (by
      have hless := hv.left_readChar s c s' h
      rw [CharReader.left, CharReader.left] at hless
      omega) hacc
  obtain ⟨k, hrun, hk⟩ := @comparePattern_spec _ _ _ a.v.readChar (a.sameChar t) (a.wordRejects offset)
    a.accepts a.buf a.len _ hv.left_readChar haccept n _ 0 (a.v.nextc offset).1 _ hn hfuel
  rw [show n + 1 = a.len by omega] at hrun hk
  refine ⟨k, ?_, hk.trans ?_⟩
  · rw [plainCompare_eq]
    exact hrun
  · refine forall₂_congr fun stop _ => or_congr_right (or_congr_right ?_)
    rw [CharReader.readChar]
    split
    · rename_i h
      exact iff_of_true rfl (by omega)
    · rename_i h
      exact iff_of_false (by simp) (by omega)

theorem hexCompare_spec (hlen : 0 < a.len) {offset : Int} {fuel : Nat} (hfuel : a.v.left offset < fuel) :
    ∃ k, a.hexCompare fuel 0 offset = some (k, a.hexTakes offset) ∧ (k ≤ a.len ↔ a.HexKeeps offset) := by
  obtain ⟨n, hn⟩ : ∃ n, 0 + (n + 1) = a.len := ⟨a.len - 1, by omega⟩
  rw [hexCompare_eq hfuel, hexTakes, HexKeeps, hexStop]
  cases hread : a.v.readByte offset with
  | none => exact ⟨0, rfl, iff_of_true (Nat.zero_le _) fun stop h => by cases h⟩
  | some r =>
    obtain ⟨c, s⟩ := r
    have hless := CharReader.left_readByte offset c s hread
    have haccept : ∀ s c s', a.v.readByte s = some (c, s') → a.accepts s' → a.accepts s :=
      fun s c s' h hacc => accepts_behind (by
        have hless := CharReader.left_readByte s c s' h
        rw [CharReader.left, CharReader.left] at hless
        omega) hacc
    obtain ⟨k, hrun, hk⟩ := @comparePattern_spec _ _ _ a.v.readByte (· == ·) (fun _ => false) a.accepts
      a.buf a.len _ (@CharReader.left_readByte a.v) haccept n _ 0 c _ hn (Nat.lt_trans hless hfuel)
    rw [show n + 1 = a.len by omega] at hrun hk
    refine ⟨k, ?_, hk.trans ?_⟩
    · simpa using hrun
    · simp only [Option.bind_some]
      refine forall₂_congr fun stop _ => ?_
      rw [CharReader.readByte]
      split
      · rename_i h
        simp only [Bool.false_eq_true, false_or, reduceCtorEq, or_false]
        exact ⟨.inl, fun h' => h'.resolve_right (by omega)⟩
      · rename_i h
        exact iff_of_true (.inr (.inr rfl)) (.inr (by omega))

/-! ## Scans -/

section Scan

variable (takes : Int → Option Int) (aborts : Int → Bool) (step : Int → Int) (stop : Int)

/-- A scan forwards from a candidate: the candidates that are compared, and the result. -/
inductive ScanForward : Int → List Int → SearchResult → Prop
  | stop {o : Int} : stop ≤ o → ScanForward o [] .notFound
  | abort {o : Int} : o < stop → aborts o = true → ScanForward o [] .aborted
  | found {o e : Int} : o < stop → aborts o = false → takes o = some e →
      ScanForward o [o] (.found o e)
  | next {o : Int} {cs : List Int} {r : SearchResult} : o < stop → aborts o = false → takes o = none →
      ScanForward (step o) cs r → ScanForward o (o :: cs) r

/-- A scan backwards from an offset: the first candidate is the one before. -/
inductive ScanBack : Int → List Int → SearchResult → Prop
  | start : ScanBack 0 [] .notFound
  | abort {o : Int} : o ≠ 0 → aborts (step o) = true → ScanBack o [] .aborted
  | found {o e : Int} : o ≠ 0 → aborts (step o) = false → takes (step o) = some e →
      ScanBack o [step o] (.found (step o) e)
  | next {o : Int} {cs : List Int} {r : SearchResult} : o ≠ 0 → aborts (step o) = false →
      takes (step o) = none → ScanBack (step o) cs r → ScanBack o (step o :: cs) r

variable (cmp : Int → Option (Nat × Option Int))

/-- A loop that scans forwards, with the comparison `cmp`. -/
def scanForward : Nat → Int → List Nat → Option Run
  | 0, _, _ => none
  | fuel + 1, o, reads =>
      if o ≥ stop then some (reads, .notFound)
      else if aborts o then some (reads, .aborted)
      else
        match cmp o with
        | none => none
        | some (pos, some e) => some (reads ++ [pos], .found o e)
        | some (pos, none) => scanForward fuel (step o) (reads ++ [pos])

def scanBack : Nat → Int → List Nat → Option Run
  | 0, _, _ => none
  | fuel + 1, o, reads =>
      if o = 0 then some (reads, .notFound)
      else if aborts (step o) then some (reads, .aborted)
      else
        match cmp (step o) with
        | none => none
        | some (pos, some e) => some (reads ++ [pos], .found (step o) e)
        | some (pos, none) => scanBack fuel (step o) (reads ++ [pos])

variable {takes aborts step stop cmp} {len : Nat} {Keeps : Int → Prop}

/-- What a comparison comes to: what is taken, and whether the pattern is kept to. -/
def Compares (cmp : Int → Option (Nat × Option Int)) (takes : Int → Option Int) (len : Nat)
    (Keeps : Int → Prop) (o : Int) : Prop :=
  ∃ k, cmp o = some (k, takes o) ∧ (k ≤ len ↔ Keeps o)

theorem scanForward_spec (hcmp : ∀ o, Compares cmp takes len Keeps o) {μ : Int → Nat}
    (hμ : ∀ o, o < stop → μ (step o) < μ o) : ∀ {fuel : Nat} {o : Int} (reads : List Nat), μ o < fuel →
      ∃ ks cs r, scanForward aborts step stop cmp fuel o reads = some (reads ++ ks, r) ∧
        ScanForward takes aborts step stop o cs r ∧
        ((∀ k ∈ ks, k ≤ len) ↔ ∀ c ∈ cs, Keeps c) := by
  intro fuel
  induction fuel with
  | zero => intro o reads h; exact absurd h (Nat.not_lt_zero _)
  | succ fuel ih =>
    intro o reads hfuel
    rw [scanForward]
    by_cases hstop : o ≥ stop
    · exact ⟨[], [], _, by rw [if_pos hstop, List.append_nil], .stop hstop, by simp⟩
    rw [if_neg hstop]
    cases habort : aborts o with
    | true => exact ⟨[], [], _, by rw [if_pos rfl, List.append_nil], .abort (by omega) habort, by simp⟩
    | false =>
      rw [if_neg Bool.false_ne_true]
      obtain ⟨k, hk, hkeeps⟩ := hcmp o
      rw [hk]
      cases htakes : takes o with
      | some e => exact ⟨[k], [o], _, rfl, .found (by omega) habort htakes, by simpa using hkeeps⟩
      | none =>
        have hless := hμ o (by omega)
        obtain ⟨ks, cs, r, hrun, hscan, hiff⟩ := @ih (step o) (reads ++ [k]) (by omega)
        refine ⟨k :: ks, o :: cs, r, ?_, .next (by omega) habort htakes hscan, ?_⟩
        · rw [← List.append_cons] at hrun
          exact hrun
        · rw [List.forall_mem_cons, List.forall_mem_cons, hkeeps, hiff]

theorem scanBack_spec (hcmp : ∀ o, Compares cmp takes len Keeps o) {μ : Int → Nat} {Ok : Int → Prop}
    (hμ : ∀ o, Ok o → o ≠ 0 → Ok (step o) ∧ μ (step o) < μ o) :
    ∀ {fuel : Nat} {o : Int} (reads : List Nat), Ok o → μ o < fuel →
      ∃ ks cs r, scanBack aborts step cmp fuel o reads = some (reads ++ ks, r) ∧
        ScanBack takes aborts step o cs r ∧ ((∀ k ∈ ks, k ≤ len) ↔ ∀ c ∈ cs, Keeps c) := by
  intro fuel
  induction fuel with
  | zero => intro o reads _ h; exact absurd h (Nat.not_lt_zero _)
  | succ fuel ih =>
    intro o reads hok hfuel
    rw [scanBack]
    by_cases hzero : o = 0
    · subst hzero
      exact ⟨[], [], _, by rw [if_pos rfl, List.append_nil], .start, by simp⟩
    rw [if_neg hzero]
    cases habort : aborts (step o) with
    | true => exact ⟨[], [], _, by rw [if_pos rfl, List.append_nil], .abort hzero habort, by simp⟩
    | false =>
      rw [if_neg Bool.false_ne_true]
      obtain ⟨k, hk, hkeeps⟩ := hcmp (step o)
      rw [hk]
      cases htakes : takes (step o) with
      | some e => exact ⟨[k], [step o], _, rfl, .found hzero habort htakes, by simpa using hkeeps⟩
      | none =>
        obtain ⟨hok', hless⟩ := hμ o hok hzero
        obtain ⟨ks, cs, r, hrun, hscan, hiff⟩ := @ih (step o) (reads ++ [k]) hok' (by omega)
        refine ⟨k :: ks, step o :: cs, r, ?_, .next hzero habort htakes hscan, ?_⟩
        · rw [← List.append_cons] at hrun
          exact hrun
        · rw [List.forall_mem_cons, List.forall_mem_cons, hkeeps, hiff]

end Scan

/-- Where the search looks for an abort request, and finds one. -/
def aborts (a : SearchArgs) (offset : Int) : Bool := offset % 0x100000 == 0 && a.abort offset

theorem plainLoop_forward (hdir : ¬a.dir < 0) : ∀ (fuel : Nat) (offset o : Int) (reads : List Nat),
    a.plainLoop t fuel offset o reads = scanForward a.aborts a.v.next a.endOffset
      (fun o => a.plainCompare t o (a.v.totalSize + 2) 0 (a.v.nextc o).1 (a.v.nextc o).2)
      fuel o reads := by
  intro fuel
  induction fuel with
  | zero => intro offset o reads; rfl
  | succ fuel ih =>
    intro offset o reads
    have hdir' : a.dir ≥ 0 := by omega
    have habort : (o % 0x100000 = 0 ∧ a.abort o = true) ↔ a.aborts o = true := by
      rw [aborts, Bool.and_eq_true, beq_iff_eq]
    rw [plainLoop, scanForward]
    simp only [if_neg hdir, hdir', true_and, habort]
    rw [if_neg (fun h => hdir h.1)]
    split
    · rfl
    split
    · rfl
    cases a.plainCompare t o (a.v.totalSize + 2) 0 (a.v.nextc o).1 (a.v.nextc o).2 with
    | none => rfl
    | some r =>
      obtain ⟨pos, e⟩ := r
      cases e with
      | none => exact ih _ _ _
      | some e => rfl

theorem plainLoop_back (hdir : a.dir < 0) : ∀ (fuel : Nat) (o offset1 : Int) (reads : List Nat),
    a.plainLoop t fuel o offset1 reads = scanBack a.aborts a.v.prev
      (fun o => a.plainCompare t o (a.v.totalSize + 2) 0 (a.v.nextc o).1 (a.v.nextc o).2)
      fuel o reads := by
  intro fuel
  induction fuel with
  | zero => intro o offset1 reads; rfl
  | succ fuel ih =>
    intro o offset1 reads
    have hdir' : ¬a.dir ≥ 0 := by omega
    have habort : ((a.v.prev o) % 0x100000 = 0 ∧ a.abort (a.v.prev o) = true) ↔
        a.aborts (a.v.prev o) = true := by
      rw [aborts, Bool.and_eq_true, beq_iff_eq]
    rw [plainLoop, scanBack]
    simp only [hdir, hdir', true_and, false_and, if_true, if_false, habort]
    split
    · rfl
    split
    · rfl
    cases a.plainCompare t (a.v.prev o) (a.v.totalSize + 2) 0 (a.v.nextc (a.v.prev o)).1
        (a.v.nextc (a.v.prev o)).2 with
    | none => rfl
    | some r =>
      obtain ⟨pos, e⟩ := r
      cases e with
      | none => exact ih _ _ _
      | some e => rfl

theorem hexLoop_forward (hdir : ¬a.dir < 0) : ∀ (fuel : Nat) (o : Int) (reads : List Nat),
    a.hexLoop fuel o reads = scanForward a.aborts (· + 1) a.endOffset
      (fun o => a.hexCompare (a.v.totalSize + o.natAbs + 1) 0 o) fuel (o + 1) reads := by
  intro fuel
  induction fuel with
  | zero => intro o reads; rfl
  | succ fuel ih =>
    intro o reads
    have hdir' : a.dir ≥ 0 := by omega
    have habort : ((o + 1) % 0x100000 = 0 ∧ a.abort (o + 1) = true) ↔ a.aborts (o + 1) = true := by
      rw [aborts, Bool.and_eq_true, beq_iff_eq]
    rw [hexLoop, scanForward]
    simp only [if_neg hdir, hdir', true_and, habort]
    rw [if_neg (fun h => hdir h.1)]
    split
    · rfl
    split
    · rfl
    cases a.hexCompare (a.v.totalSize + (o + 1).natAbs + 1) 0 (o + 1) with
    | none => rfl
    | some r =>
      obtain ⟨pos, e⟩ := r
      cases e with
      | none => exact ih _ _
      | some e => rfl

theorem hexLoop_back (hdir : a.dir < 0) : ∀ (fuel : Nat) (o : Int) (reads : List Nat),
    a.hexLoop fuel o reads = scanBack a.aborts (· - 1)
      (fun o => a.hexCompare (a.v.totalSize + o.natAbs + 1) 0 o) fuel o reads := by
  intro fuel
  induction fuel with
  | zero => intro o reads; rfl
  | succ fuel ih =>
    intro o reads
    have hdir' : ¬a.dir ≥ 0 := by omega
    have habort : ((o - 1) % 0x100000 = 0 ∧ a.abort (o - 1) = true) ↔ a.aborts (o - 1) = true := by
      rw [aborts, Bool.and_eq_true, beq_iff_eq]
    rw [hexLoop, scanBack]
    simp only [hdir, hdir', true_and, false_and, if_true, if_false, habort]
    split
    · rfl
    split
    · rfl
    cases a.hexCompare (a.v.totalSize + (o - 1).natAbs + 1) 0 (o - 1) with
    | none => rfl
    | some r =>
      obtain ⟨pos, e⟩ := r
      cases e with
      | none => exact ih _ _
      | some e => rfl

theorem analyzeCase_flags (t : CaseTables) (flags : SearchFlags) (buf : Nat → Nat) (len : Nat) :
    (analyzeCase t flags buf len).word = flags.word ∧ (analyzeCase t flags buf len).regex = flags.regex ∧
      (analyzeCase t flags buf len).hex = flags.hex := by
  unfold analyzeCase
  split
  · simp only []
    split
    · exact ⟨rfl, rfl, rfl⟩
    · exact ⟨rfl, rfl, rfl⟩
  · exact ⟨rfl, rfl, rfl⟩

end SearchArgs

/-! ## The search as a scan -/

section Search

variable {t : CaseTables} {v : CharReader} {dir : Int} {flags : SearchFlags} {startOffset endOffset : Int}
  {buf : Nat → Nat} {len : Nat} {abort : Int → Bool}

open SearchArgs

theorem searchArgs_fields {a : SearchArgs}
    (ha : searchArgs t v dir flags startOffset endOffset buf len abort = a) :
    a.v = v ∧ a.len = len ∧ a.dir = dir := by
  rw [← ha]
  exact ⟨rfl, rfl, rfl⟩

theorem searchArgs_hex : (searchArgs t v dir flags startOffset endOffset buf len abort).flags.hex = flags.hex :=
  (analyzeCase_flags t flags buf len).2.2

theorem searchArgs_regex :
    (searchArgs t v dir flags startOffset endOffset buf len abort).flags.regex = flags.regex :=
  (analyzeCase_flags t flags buf len).2.1

theorem searchArgs_word :
    (searchArgs t v dir flags startOffset endOffset buf len abort).flags.word = flags.word :=
  (analyzeCase_flags t flags buf len).1

theorem ebSearch_plain_eq (lre : Lre) (hlen : 0 < len) (hhex : flags.hex = false) (hregex : flags.regex = false)
    {a : SearchArgs} (ha : searchArgs t v dir flags startOffset endOffset buf len abort = a) :
    ebSearch t lre v dir flags startOffset endOffset buf len abort
      = a.plainLoop t (v.totalSize + startOffset.natAbs + 3) startOffset startOffset [] := by
  have hhex' : a.flags.hex = false := by rw [← ha, searchArgs_hex, hhex]
  have hregex' : a.flags.regex = false := by rw [← ha, searchArgs_regex, hregex]
  rw [ebSearch, if_neg (by omega)]
  simp only [ha, hhex', hregex', Bool.false_eq_true, if_false]

theorem ebSearch_hex_eq (lre : Lre) (hlen : 0 < len) (hhex : flags.hex = true) {a : SearchArgs}
    (ha : searchArgs t v dir flags startOffset endOffset buf len abort = a) :
    ebSearch t lre v dir flags startOffset endOffset buf len abort
      = a.hexLoop (v.totalSize + startOffset.natAbs + 3) (if dir ≥ 0 then startOffset - 1 else startOffset) [] := by
  have hhex' : a.flags.hex = true := by rw [← ha, searchArgs_hex, hhex]
  rw [ebSearch, if_neg (by omega)]
  simp only [ha, hhex', if_true]

/-- A scan of characters backwards from `o` has a measure. -/
def backMeasure (o : Int) : Nat := if o = 0 then 0 else if o < 0 then 1 else o.toNat + 1

theorem backMeasure_le (o : Int) : backMeasure o ≤ o.natAbs + 1 := by
  rw [backMeasure]
  split
  · omega
  · split <;> omega

theorem CharReader.Progress.backMeasure_prev (hv : v.Progress) {o : Int} (ho : o ≠ 0) :
    backMeasure (v.prev o) < backMeasure o := by
  rcases Int.lt_or_gt_of_ne ho with hneg | hpos
  · rw [hv.start o (Int.le_of_lt hneg), backMeasure, if_pos rfl, backMeasure, if_neg ho, if_pos hneg]
    exact Nat.one_pos
  · have hprev := hv.prev o hpos
    have hmeasure : backMeasure o = o.toNat + 1 := by
      rw [backMeasure, if_neg ho, if_neg (by omega)]
    rw [hmeasure, backMeasure]
    split
    · omega
    · split <;> omega

/-- What a search has to come to: a scan with its result, in which what is read of the pattern depends on
the candidates. -/
def SearchScans (run : Option SearchArgs.Run) (scan : List Int → SearchResult → Prop) (len : Nat) (Keeps : Int → Prop) :
    Prop :=
  ∃ ks cs r, run = some (ks, r) ∧ scan cs r ∧ ((∀ k ∈ ks, k ≤ len) ↔ ∀ c ∈ cs, Keeps c)

theorem ebSearch_plain_forward (lre : Lre) (hv : v.Progress) (hlen : 0 < len) (hhex : flags.hex = false)
    (hregex : flags.regex = false) (hdir : ¬dir < 0) {a : SearchArgs}
    (ha : searchArgs t v dir flags startOffset endOffset buf len abort = a) :
    SearchScans (ebSearch t lre v dir flags startOffset endOffset buf len abort)
      (ScanForward (a.plainTakes t) a.aborts v.next (min endOffset v.totalSize) startOffset) len
      (a.PlainKeeps t) := by
  rw [ebSearch_plain_eq lre hlen hhex hregex ha]
  have hend : a.endOffset = min endOffset v.totalSize := by rw [← ha, searchArgs, if_neg hdir]
  obtain ⟨rfl, rfl, rfl⟩ := searchArgs_fields ha
  rw [plainLoop_forward hdir, hend]
  refine @scanForward_spec _ _ _ _ _ _ _ (fun o => plainCompare_spec hv hlen o)
    (fun o => (min endOffset a.v.totalSize - o).toNat) (fun o ho => ?_) _ _ [] ?_
  · have hnext := hv.next o (by omega)
    omega
  · omega

theorem ebSearch_plain_back (lre : Lre) (hv : v.Progress) (hlen : 0 < len) (hhex : flags.hex = false)
    (hregex : flags.regex = false) (hdir : dir < 0) {a : SearchArgs}
    (ha : searchArgs t v dir flags startOffset endOffset buf len abort = a) :
    SearchScans (ebSearch t lre v dir flags startOffset endOffset buf len abort)
      (ScanBack (a.plainTakes t) a.aborts v.prev startOffset) len (a.PlainKeeps t) := by
  rw [ebSearch_plain_eq lre hlen hhex hregex ha]
  obtain ⟨rfl, rfl, rfl⟩ := searchArgs_fields ha
  rw [plainLoop_back hdir]
  have hmeasure := backMeasure_le startOffset
  exact @scanBack_spec _ _ _ _ _ _ (fun o => plainCompare_spec hv hlen o) backMeasure (fun _ => True)
    (fun o _ ho => ⟨trivial, hv.backMeasure_prev ho⟩) _ _ [] trivial (by omega)

theorem ebSearch_hex_forward (lre : Lre) (hlen : 0 < len) (hhex : flags.hex = true) (hdir : ¬dir < 0)
    {a : SearchArgs} (ha : searchArgs t v dir flags startOffset endOffset buf len abort = a) :
    SearchScans (ebSearch t lre v dir flags startOffset endOffset buf len abort)
      (ScanForward a.hexTakes a.aborts (· + 1) (min endOffset v.totalSize) startOffset) len a.HexKeeps := by
  rw [ebSearch_hex_eq lre hlen hhex ha]
  have hend : a.endOffset = min endOffset v.totalSize := by rw [← ha, searchArgs, if_neg hdir]
  obtain ⟨rfl, rfl, rfl⟩ := searchArgs_fields ha
  rw [if_pos (by omega), hexLoop_forward hdir, hend, Int.sub_add_cancel]
  refine @scanForward_spec _ _ _ _ _ _ _ (fun o => hexCompare_spec hlen ?_)
    (fun o => (min endOffset a.v.totalSize - o).toNat) (fun o ho => ?_) _ _ [] ?_
  · rw [CharReader.left]
    show (a.v.totalSize - o : Int).toNat < a.v.totalSize + o.natAbs + 1
    omega
  · omega
  · omega

/-- And backwards: one does not get to the start of the buffer from in front of it. -/
theorem ebSearch_hex_back (lre : Lre) (hlen : 0 < len) (hhex : flags.hex = true) (hdir : dir < 0)
    (hstart : 0 ≤ startOffset) {a : SearchArgs}
    (ha : searchArgs t v dir flags startOffset endOffset buf len abort = a) :
    SearchScans (ebSearch t lre v dir flags startOffset endOffset buf len abort)
      (ScanBack a.hexTakes a.aborts (· - 1) startOffset) len a.HexKeeps := by
  rw [ebSearch_hex_eq lre hlen hhex ha]
  obtain ⟨rfl, rfl, rfl⟩ := searchArgs_fields ha
  rw [if_neg (by omega), hexLoop_back hdir]
  refine @scanBack_spec _ _ _ _ _ _ (fun o => hexCompare_spec hlen ?_) Int.toNat (fun o => 0 ≤ o)
    (fun o hok ho => ⟨by omega, by omega⟩) _ _ [] hstart (by omega)
  rw [CharReader.left]
  show (a.v.totalSize - o : Int).toNat < a.v.totalSize + o.natAbs + 1
  omega

end Search

end Qemacs
