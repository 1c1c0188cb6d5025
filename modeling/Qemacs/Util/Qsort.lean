import Qemacs.Util.Exchange

/-!
# Sorting

`qe_qsort_r` partitions a segment around a pivot, puts the larger part on a stack of its own and goes on with the
smaller one; of less than seven elements it makes an insertion sort. A pointer into the array is the number of the
element here, and `compare` is asked about the elements' bytes.
-/

namespace Qemacs

open Lib

/-- The arguments of `qe_qsort_r` that do not change, without the number of elements. -/
structure SortArgs where
  base : Nat
  size : Nat
  compare : (Fin size → UInt8) → (Fin size → UInt8) → Int

def maxStack : Nat := 64

section Code

variable (q : SortArgs)

/-- `compare(thunk, a, b)`. -/
def SortArgs.compareAt (mem : Nat → UInt8) (a b : Nat) : Int :=
  q.compare (element q.base q.size mem a) (element q.base q.size mem b)

/-- `exchange(a, b, size)`. -/
def SortArgs.exchange (a b : Nat) (mem : Nat → UInt8) : Nat → UInt8 := Qemacs.exchange q.base q.size a b mem

def SortArgs.med3R (mem : Nat → UInt8) (a b c : Nat) : Nat :=
  if q.compareAt mem a b < 0 then
    if q.compareAt mem b c < 0 then b else if q.compareAt mem a c < 0 then c else a
  else
    if q.compareAt mem b c > 0 then b else if q.compareAt mem a c < 0 then a else c

/-- `while (i < j && compare(lb, i) > 0)`, the first argument being `j - i`. -/
def SortArgs.scanUp (mem : Nat → UInt8) (lb : Nat) : Nat → Nat → Nat
  | 0, i => i
  | k + 1, i => if q.compareAt mem lb i > 0 then scanUp mem lb k (i + 1) else i

/-- `while (j >= i && compare(j, lb) > 0)`. `i` is not the first element. -/
def SortArgs.scanDown (mem : Nat → UInt8) (lb i : Nat) : Nat → Nat → Nat × Nat
  | 0, m0 => (0, m0)
  | j + 1, m0 =>
      if j + 1 ≥ i ∧ q.compareAt mem (j + 1) lb > 0 then scanDown mem lb i j (m0 - 1) else (j + 1, m0)

/-- The loop that partitions a segment, whose pivot is at `lb`. It leaves `j` and `m0`. -/
def SortArgs.partitionLoop (lb : Nat) : Nat → Nat → Nat → Nat → (Nat → UInt8) → Option ((Nat → UInt8) × Nat × Nat)
  | 0, _, _, _, _ => none
  | fuel + 1, i, j, m0, mem =>
      let i := q.scanUp mem lb (j - i) i
      let (j, m0) := q.scanDown mem lb i j m0
      if i ≥ j then some (mem, j, m0)
      else partitionLoop lb fuel (i + 1) (j - 1) (m0 - 1) (q.exchange i j mem)

/-- The partition of the `n` elements at `lb`. -/
def SortArgs.partition (lb n : Nat) (mem : Nat → UInt8) : Option ((Nat → UInt8) × Nat × Nat) := do
  let i := lb + 1
  let j := lb + (n - 1)
  let m0 := n >>> 2
  let m := q.med3R mem (lb + m0) (lb + 2 * m0) (lb + 3 * m0)
  let mem := q.exchange lb m mem
  let (mem, j, m0) ← q.partitionLoop lb n i j (n - 1) mem
  some (q.exchange lb j mem, j, m0)

/-- `for (m = i; m > lb && compare(m - size, m) > 0; m -= size)`. -/
def SortArgs.sink (lb : Nat) : Nat → (Nat → UInt8) → Nat → UInt8
  | 0, mem => mem
  | m + 1, mem =>
      if m + 1 > lb ∧ q.compareAt mem m (m + 1) > 0 then sink lb m (q.exchange (m + 1) m mem) else mem

/-- The loop of the insertion sort, the first argument being `j - i`. -/
def SortArgs.insertionLoop (lb : Nat) : Nat → Nat → (Nat → UInt8) → Nat → UInt8
  | 0, _, mem => mem
  | k + 1, i, mem => insertionLoop lb k (i + 1) (q.sink lb i mem)

/-- `sp++`. `none` is a write behind the stack. -/
def pushStack (stack : List (Nat × Nat)) (base count : Nat) : Option (List (Nat × Nat)) :=
  if stack.length < maxStack then some ((base, count) :: stack) else none

/-- The two outer loops of `qe_qsort_r`, at the `n` elements at `lb`. -/
def SortArgs.qsortLoop : Nat → Nat → Nat → List (Nat × Nat) → (Nat → UInt8) → Option (Nat → UInt8)
  | 0, _, _, _, _ => none
  | fuel + 1, lb, n, stack, mem =>
      if n ≥ 7 then do
        let (mem, j, m0) ← q.partition lb n mem
        let n := n - m0 - 1
        if m0 < n then
          let stack ← if n > 1 then pushStack stack (j + 1) n else some stack
          qsortLoop fuel lb m0 stack mem
        else
          let stack ← if m0 > 1 then pushStack stack lb m0 else some stack
          qsortLoop fuel (j + 1) n stack mem
      else
        let mem := q.insertionLoop lb (n - 1) (lb + 1) mem
        match stack with
        | [] => some mem
        | (lb, n) :: stack => qsortLoop fuel lb n stack mem

def SortArgs.qeQsortR (nmemb : Nat) (mem : Nat → UInt8) : Option (Nat → UInt8) :=
  if nmemb < 2 ∨ q.size = 0 then some mem
  else do
    let stack ← pushStack [] 0 nmemb
    match stack with
    | [] => some mem
    | (lb, n) :: stack => q.qsortLoop (2 * nmemb + 1) lb n stack mem

/-! ## The elements -/

def SortArgs.elements (mem : Nat → UInt8) : Nat → Fin q.size → UInt8 := element q.base q.size mem

variable {q}

variable {n lb : Nat}

theorem SortArgs.exchange_rearranged {i j : Nat} (hi : lb ≤ i ∧ i < lb + n) (hj : lb ≤ j ∧ j < lb + n)
    (mem : Nat → UInt8) : Rearranged lb n (q.elements mem) (q.elements (q.exchange i j mem)) :=
  .swap hi hj (element_exchange q.base q.size i j mem)

theorem SortArgs.elements_exchange (i j : Nat) (mem : Nat → UInt8) (k : Nat) :
    q.elements (q.exchange i j mem) k = q.elements mem (Equiv.swap i j k) :=
  element_exchange q.base q.size i j mem k

theorem SortArgs.exchange_left (i j : Nat) (mem : Nat → UInt8) :
    q.elements (q.exchange i j mem) i = q.elements mem j := by
  rw [SortArgs.elements_exchange, Equiv.swap_apply_left]

theorem SortArgs.exchange_right (i j : Nat) (mem : Nat → UInt8) :
    q.elements (q.exchange i j mem) j = q.elements mem i := by
  rw [SortArgs.elements_exchange, Equiv.swap_apply_right]

theorem SortArgs.exchange_ne {i j k : Nat} (hi : k ≠ i) (hj : k ≠ j) (mem : Nat → UInt8) :
    q.elements (q.exchange i j mem) k = q.elements mem k := by
  rw [SortArgs.elements_exchange, Equiv.swap_apply_of_ne_of_ne hi hj]

/-! ## The partition -/

/-- What is before `i` is not behind the pivot, which is at `lb`, and what is behind `j` is not before it. -/
structure SortArgs.Zones (q : SortArgs) (lb n i j : Nat) (mem : Nat → UInt8) : Prop where
  before : ∀ p, lb < p → p < i → NotAfter q.compare (q.elements mem p) (q.elements mem lb)
  behind : ∀ p, j < p → p < lb + n → NotAfter q.compare (q.elements mem lb) (q.elements mem p)

theorem SortArgs.scanUp_spec (h : TotalCompare q.compare) (mem : Nat → UInt8) (lb n j : Nat) : ∀ (k i : Nat),
    q.Zones lb n i j mem → i ≤ q.scanUp mem lb k i ∧ q.scanUp mem lb k i ≤ i + k ∧
      q.Zones lb n (q.scanUp mem lb k i) j mem ∧ (q.scanUp mem lb k i < i + k →
        NotAfter q.compare (q.elements mem lb) (q.elements mem (q.scanUp mem lb k i)))
  | 0, i, hz => ⟨le_rfl, le_rfl, hz, fun h => absurd h (lt_irrefl i)⟩
  | k + 1, i, hz => by
      rw [scanUp]
      split_ifs with hcmp
      · have hz' : q.Zones lb n (i + 1) j mem := by
          refine ⟨fun p hp hpi => ?_, hz.behind⟩
          rcases Nat.eq_or_lt_of_le (Nat.le_of_lt_succ hpi) with rfl | hlt
          · exact h.notAfter_of_pos hcmp
          · exact hz.before p hp hlt
        obtain ⟨hle, hlek, hscan, hstop⟩ := SortArgs.scanUp_spec h mem lb n j k (i + 1) hz'
        exact ⟨by omega, by omega, hscan, fun hlt => hstop (by omega)⟩
      · exact ⟨le_rfl, by omega, hz, fun _ => Int.not_lt.mp hcmp⟩

/-- `j` is stopped by an element that is not behind the pivot, or below `i`. `m0` stays with it. -/
theorem SortArgs.scanDown_spec (h : TotalCompare q.compare) (mem : Nat → UInt8) (lb n : Nat) {i : Nat} (hi : lb < i) :
    ∀ j, i ≤ j + 1 → q.Zones lb n i j mem → ∃ j', q.scanDown mem lb i j (j - lb) = (j', j' - lb) ∧ j' ≤ j ∧
      i ≤ j' + 1 ∧ q.Zones lb n i j' mem ∧
      (i ≤ j' → NotAfter q.compare (q.elements mem j') (q.elements mem lb))
  | 0, hij, hz => ⟨0, rfl, le_rfl, hij, hz, fun h => by omega⟩
  | j + 1, hij, hz => by
      rw [scanDown]
      split_ifs with hcmp
      · have hz' : q.Zones lb n i j mem := by
          refine ⟨hz.before, fun p hp hpn => ?_⟩
          rcases Nat.eq_or_lt_of_le (Nat.succ_le_of_lt hp) with rfl | hlt
          · exact h.notAfter_of_pos hcmp.2
          · exact hz.behind p hlt hpn
        obtain ⟨j', hscan, hle, hij', hzones, hstop⟩ := SortArgs.scanDown_spec h mem lb n hi j (by omega) hz'
        have hm0 : j + 1 - lb - 1 = j - lb := by omega
        rw [hm0]
        exact ⟨j', hscan, by omega, hij', hzones, hstop⟩
      · exact ⟨j + 1, rfl, le_rfl, hij, hz, fun hle => Int.not_lt.mp fun hpos => hcmp ⟨hle, hpos⟩⟩

variable {mem : Nat → UInt8}

theorem SortArgs.Zones.exchange {i j : Nat} (hz : q.Zones lb n i j mem) (hi : lb < i) (hij : i < j)
    (hleft : NotAfter q.compare (q.elements mem j) (q.elements mem lb))
    (hright : NotAfter q.compare (q.elements mem lb) (q.elements mem i)) :
    q.Zones lb n (i + 1) (j - 1) (q.exchange i j mem) := by
  have hpivot : q.elements (q.exchange i j mem) lb = q.elements mem lb :=
    SortArgs.exchange_ne (by omega) (by omega) mem
  constructor
  · intro p hp hpi
    rw [hpivot]
    rcases Nat.eq_or_lt_of_le (Nat.le_of_lt_succ hpi) with rfl | hlt
    · rw [SortArgs.exchange_left]
      exact hleft
    · rw [SortArgs.exchange_ne (by omega) (by omega)]
      exact hz.before p hp hlt
  · intro p hp hpn
    rw [hpivot]
    rcases Nat.eq_or_lt_of_le (show j ≤ p by omega) with rfl | hlt
    · rw [SortArgs.exchange_right]
      exact hright
    · rw [SortArgs.exchange_ne (by omega) (by omega)]
      exact hz.behind p hlt hpn

/-- **The loop of the partition** ends with `j` between the zones. -/
theorem SortArgs.partitionLoop_spec (h : TotalCompare q.compare) (lb n : Nat) : ∀ (fuel i j : Nat) (mem : Nat → UInt8),
    lb < i → i ≤ j + 1 → j < lb + n → j + 1 - i < fuel → q.Zones lb n i j mem →
    ∃ r j', q.partitionLoop lb fuel i j (j - lb) mem = some (r, j', j' - lb) ∧ lb ≤ j' ∧ j' < lb + n ∧
      Rearranged (lb + 1) (n - 1) (q.elements mem) (q.elements r) ∧ q.Zones lb n (j' + 1) j' r
  | 0, _, _, _, _, _, _, hfuel, _ => absurd hfuel (Nat.not_lt_zero _)
  | fuel + 1, i, j, mem, hi, hij, hj, hfuel, hz => by
      obtain ⟨hup, hupj, hzup, hupstop⟩ := SortArgs.scanUp_spec h mem lb n j (j - i) i hz
      obtain ⟨j', hdown, hdownj, hij', hzdown, hdownstop⟩ :=
        SortArgs.scanDown_spec h mem lb n (i := q.scanUp mem lb (j - i) i) (by omega) j (by omega) hzup
      simp only [SortArgs.partitionLoop, hdown]
      generalize q.scanUp mem lb (j - i) i = i' at *
      split_ifs with hmeet
      · refine ⟨mem, j', rfl, by omega, by omega, .refl _ _ _, fun p hp hpj => ?_, hzdown.behind⟩
        rcases Nat.lt_or_ge p i' with hlt | hge
        · exact hzdown.before p hp hlt
        · -- `i` and `j` have met
          obtain rfl : p = j' := by omega
          exact hdownstop hge
      · have hnext := hzdown.exchange (by omega) (by omega) (hdownstop (by omega)) (hupstop (by omega))
        have hm0 : j' - lb - 1 = j' - 1 - lb := by omega
        obtain ⟨r, jr, hrun, hlb, hn, hr, hzr⟩ := SortArgs.partitionLoop_spec h lb n fuel (i' + 1) (j' - 1)
          (q.exchange i' j' mem) (by omega) (by omega) (by omega) (by omega) hnext
        have hswap : Rearranged (lb + 1) (n - 1) (q.elements mem) (q.elements (q.exchange i' j' mem)) :=
          SortArgs.exchange_rearranged (by omega) (by omega) mem
        exact ⟨r, jr, hm0 ▸ hrun, hlb, hn, hswap.trans hr, hzr⟩

theorem SortArgs.med3R_eq (mem : Nat → UInt8) (a b c : Nat) :
    q.med3R mem a b c = a ∨ q.med3R mem a b c = b ∨ q.med3R mem a b c = c := by
  unfold SortArgs.med3R
  split_ifs <;> simp

/-- **The partition** puts an element where it belongs, with `m0` elements before it. -/
theorem SortArgs.partition_spec (h : TotalCompare q.compare) (lb : Nat) (hn : 7 ≤ n) (mem : Nat → UInt8) :
    ∃ r j, q.partition lb n mem = some (r, j, j - lb) ∧ lb ≤ j ∧ j < lb + n ∧
      Rearranged lb n (q.elements mem) (q.elements r) ∧ PartitionedAt (NotAfter q.compare) lb n j (q.elements r) := by
  have hm : lb ≤ q.med3R mem (lb + n >>> 2) (lb + 2 * (n >>> 2)) (lb + 3 * (n >>> 2)) ∧
      q.med3R mem (lb + n >>> 2) (lb + 2 * (n >>> 2)) (lb + 3 * (n >>> 2)) < lb + n := by
    rcases q.med3R_eq mem (lb + n >>> 2) (lb + 2 * (n >>> 2)) (lb + 3 * (n >>> 2)) with heq | heq | heq <;>
      rw [heq] <;> omega
  obtain ⟨r, j, hrun, hj, hjn, hr, hz⟩ := SortArgs.partitionLoop_spec h lb n n (lb + 1) (lb + (n - 1))
    (q.exchange lb (q.med3R mem (lb + n >>> 2) (lb + 2 * (n >>> 2)) (lb + 3 * (n >>> 2))) mem)
    (by omega) (by omega) (by omega) (by omega) ⟨fun p hp hpi => by omega, fun p hp hpn => by omega⟩
  rw [Nat.add_sub_cancel_left] at hrun
  have hpivot : Rearranged lb n (q.elements mem) (q.elements (q.exchange lb _ mem)) :=
    SortArgs.exchange_rearranged (by omega) hm mem
  have hlast : Rearranged lb n (q.elements r) (q.elements (q.exchange lb j r)) :=
    SortArgs.exchange_rearranged (by omega) ⟨hj, hjn⟩ r
  refine ⟨q.exchange lb j r, j, ?_, hj, hjn, (hpivot.trans (hr.mono (by omega) (by omega))).trans hlast, ?_⟩
  · simp only [SortArgs.partition, hrun]
    rfl
  constructor
  · intro k hk hkj
    rw [SortArgs.exchange_right]
    rcases Nat.eq_or_lt_of_le hk with rfl | hlt
    · rw [SortArgs.exchange_left]
      exact hz.before j hkj (Nat.lt_succ_self j)
    · rw [SortArgs.exchange_ne (by omega) (by omega)]
      exact hz.before k hlt (by omega)
  · intro k hjk hk
    rw [SortArgs.exchange_right, SortArgs.exchange_ne (by omega) (by omega)]
    exact hz.behind k hjk hk

/-! ## The insertion sort -/

/-- All cells up to `last` are in order, but for what is before `m`. -/
def SortedBut {α : Type} (le : α → α → Prop) (lb m last : Nat) (a : Nat → α) : Prop :=
  ∀ p p', lb ≤ p → p < p' → p' ≤ last → p' ≠ m → le (a p) (a p')

/-- The element at `m + 1` changes places with the one before it, which is behind it. -/
theorem SortArgs.sortedBut_exchange (h : TotalCompare q.compare) {m last : Nat}
    (hsorted : SortedBut (NotAfter q.compare) lb (m + 1) last (q.elements mem)) (hm : m + 1 ≤ last) (hlb : lb ≤ m)
    (hcmp : q.compareAt mem m (m + 1) > 0) :
    SortedBut (NotAfter q.compare) lb m last (q.elements (q.exchange (m + 1) m mem)) := by
  intro p p' hp hlt hle hne
  by_cases hp'm : p' = m + 1
  · rw [hp'm, SortArgs.exchange_left]
    rcases Nat.eq_or_lt_of_le (show p ≤ m by omega) with rfl | hpm
    · rw [SortArgs.exchange_right]
      exact h.notAfter_of_pos hcmp
    · rw [SortArgs.exchange_ne (by omega) (by omega)]
      exact hsorted p m hp hpm (by omega) (by omega)
  · rw [SortArgs.exchange_ne hp'm hne]
    rcases Nat.lt_trichotomy p m with hpm | rfl | hpm
    · rw [SortArgs.exchange_ne (by omega) (by omega)]
      exact hsorted p p' hp hlt hle hp'm
    · rw [SortArgs.exchange_right]
      exact hsorted (p + 1) p' (by omega) (by omega) hle hp'm
    · rcases Nat.eq_or_lt_of_le (show m + 1 ≤ p from hpm) with rfl | hmp
      · rw [SortArgs.exchange_left]
        exact hsorted m p' hlb (by omega) hle hp'm
      · rw [SortArgs.exchange_ne (by omega) (by omega)]
        exact hsorted p p' hp hlt hle hp'm

theorem SortedBut.sorted {α : Type} {le : α → α → Prop} (htrans : ∀ x y z, le x y → le y z → le x z) {m last : Nat}
    {a : Nat → α} (hsorted : SortedBut le lb (m + 1) last a) (hm : m + 1 ≤ last)
    (hstop : lb ≤ m → le (a m) (a (m + 1))) :
    SortedOn le lb (last + 1 - lb) a := by
  intro p p' hp hlt hp'
  by_cases hp'm : p' = m + 1
  · rw [hp'm]
    rcases Nat.eq_or_lt_of_le (show p ≤ m by omega) with rfl | hpm
    · exact hstop hp
    · exact htrans _ _ _ (hsorted p m hp hpm (by omega) (by omega)) (hstop (by omega))
  · exact hsorted p p' hp hlt (by omega) hp'm

theorem SortArgs.sink_spec (h : TotalCompare q.compare) (lb last : Nat) : ∀ (m : Nat) (mem : Nat → UInt8),
    lb ≤ m → m ≤ last → SortedBut (NotAfter q.compare) lb m last (q.elements mem) →
    Rearranged lb (last + 1 - lb) (q.elements mem) (q.elements (q.sink lb m mem)) ∧
      SortedOn (NotAfter q.compare) lb (last + 1 - lb) (q.elements (q.sink lb m mem))
  | 0, mem, _, _, hsorted => ⟨.refl _ _ _, fun p p' hp hlt hp' => hsorted p p' hp hlt (by omega) (by omega)⟩
  | m + 1, mem, hlb, hm, hsorted => by
      rw [SortArgs.sink]
      split_ifs with hcmp
      · have hlbm : lb ≤ m := Nat.le_of_lt_succ hcmp.1
        obtain ⟨hr, hend⟩ := SortArgs.sink_spec h lb last m (q.exchange (m + 1) m mem) hlbm (by omega)
          (SortArgs.sortedBut_exchange h hsorted hm hlbm hcmp.2)
        exact ⟨(SortArgs.exchange_rearranged (by omega) (by omega) mem).trans hr, hend⟩
      · exact ⟨.refl _ _ _, hsorted.sorted h.notAfter_trans hm fun hlbm =>
          Int.not_lt.mp fun hpos => hcmp ⟨Nat.lt_succ_of_le hlbm, hpos⟩⟩

theorem SortArgs.insertionLoop_spec (h : TotalCompare q.compare) (lb : Nat) : ∀ (k i : Nat) (mem : Nat → UInt8),
    lb ≤ i → SortedOn (NotAfter q.compare) lb (i - lb) (q.elements mem) →
    Rearranged lb (i + k - lb) (q.elements mem) (q.elements (q.insertionLoop lb k i mem)) ∧
      SortedOn (NotAfter q.compare) lb (i + k - lb) (q.elements (q.insertionLoop lb k i mem))
  | 0, i, mem, _, hsorted => ⟨.refl _ _ _, hsorted⟩
  | k + 1, i, mem, hlb, hsorted => by
      obtain ⟨hsink, hsinksorted⟩ := SortArgs.sink_spec h lb i i mem hlb le_rfl
        fun p p' hp hlt hle hne => hsorted p p' hp hlt (by omega)
      have hrest := SortArgs.insertionLoop_spec h lb k (i + 1) (q.sink lb i mem) (by omega) hsinksorted
      have hend : i + 1 + k = i + (k + 1) := by omega
      rw [SortArgs.insertionLoop, ← hend]
      exact ⟨(hsink.mono le_rfl (by omega)).trans hrest.1, hrest.2⟩

/-- **The insertion sort.** -/
theorem SortArgs.insertion_spec (h : TotalCompare q.compare) (lb n : Nat) (mem : Nat → UInt8) :
    Rearranged lb n (q.elements mem) (q.elements (q.insertionLoop lb (n - 1) (lb + 1) mem)) ∧
      SortedOn (NotAfter q.compare) lb n (q.elements (q.insertionLoop lb (n - 1) (lb + 1) mem)) := by
  rcases Nat.eq_zero_or_pos n with rfl | hn
  · exact ⟨.refl _ _ _, sortedOn_of_le_one (Nat.zero_le 1)⟩
  · obtain ⟨hr, hsorted⟩ := SortArgs.insertionLoop_spec h lb (n - 1) (lb + 1) mem (by omega)
      (sortedOn_of_le_one (by omega))
    have hend : lb + 1 + (n - 1) - lb = n := by omega
    rw [hend] at hr hsorted
    exact ⟨hr, hsorted⟩

/-! ## The stack -/

/-- `sp--`, and the loop on what has been there. -/
def SortArgs.popStack (q : SortArgs) (fuel : Nat) : List (Nat × Nat) → (Nat → UInt8) → Option (Nat → UInt8)
  | [], mem => some mem
  | (lb, n) :: stack, mem => q.qsortLoop fuel lb n stack mem

/-- After at most `k` rounds the `n` elements at `lb` are sorted, and the stack is what it was. -/
structure SortArgs.Sorts (q : SortArgs) (k lb n : Nat) (stack : List (Nat × Nat)) (mem r : Nat → UInt8) : Prop where
  rearranged : Rearranged lb n (q.elements mem) (q.elements r)
  sorted : SortedOn (NotAfter q.compare) lb n (q.elements r)
  run : ∀ fuel, q.qsortLoop (fuel + k) lb n stack mem = q.popStack fuel stack r

theorem SortArgs.sorts_small (h : TotalCompare q.compare) (hn : n < 7) (lb : Nat) (stack : List (Nat × Nat))
    (mem : Nat → UInt8) : q.Sorts 1 lb n stack mem (q.insertionLoop lb (n - 1) (lb + 1) mem) := by
  obtain ⟨hr, hsorted⟩ := SortArgs.insertion_spec h lb n mem
  refine ⟨hr, hsorted, fun fuel => ?_⟩
  rw [SortArgs.qsortLoop, if_neg (Nat.not_le.mpr hn)]
  cases stack <;> rfl

/-- There is room for what a segment of `n` elements puts on the stack: an entry for every time it can be halved. -/
def HasRoom (n : Nat) (stack : List (Nat × Nat)) : Prop := n < 2 ^ (maxStack - stack.length)

variable {stack : List (Nat × Nat)}

theorem HasRoom.push (hroom : HasRoom n stack) (hn : 7 ≤ n) (base count : Nat) :
    pushStack stack base count = some ((base, count) :: stack) := by
  refine if_pos (Nat.lt_of_not_le fun hfull => ?_)
  unfold HasRoom at hroom
  rw [Nat.sub_eq_zero_of_le hfull] at hroom
  omega

theorem HasRoom.half {m : Nat} (hroom : HasRoom n stack) (hn : 7 ≤ n) (hm : 2 * m < n) (seg : Nat × Nat)
    : HasRoom m (seg :: stack) := by
  have hpos : 0 < maxStack - stack.length := by
    by_contra hfull
    unfold HasRoom at hroom
    rw [Nat.eq_zero_of_not_pos hfull] at hroom
    omega
  have hlen : maxStack - stack.length = maxStack - (seg :: stack).length + 1 := by
    rw [List.length_cons]
    omega
  unfold HasRoom at hroom ⊢
  rw [hlen, Nat.pow_succ] at hroom
  omega

theorem HasRoom.smaller {m : Nat} (hroom : HasRoom n stack) (hm : m < n) :
    HasRoom m stack := Nat.lt_trans hm hroom

/-- Two segments, the smaller one at once and the larger one from the stack, if it has more than one element. -/
theorem SortArgs.sorts_sides (hn : 7 ≤ n) (ih : ∀ m < n, ∀ lb stack mem, HasRoom m stack →
    ∃ k r, k ≤ 2 * m + 1 ∧ q.Sorts k lb m stack mem r) (ls ns ll nl : Nat) (hns : 2 * ns < n) (hnl : nl < n)
    (hroom : HasRoom n stack) (mem : Nat → UInt8) :
    ∃ k r₁ r, k ≤ 2 * ns + 2 * nl + 2 ∧ Rearranged ls ns (q.elements mem) (q.elements r₁) ∧
      SortedOn (NotAfter q.compare) ls ns (q.elements r₁) ∧ Rearranged ll nl (q.elements r₁) (q.elements r) ∧
      SortedOn (NotAfter q.compare) ll nl (q.elements r) ∧
      ∀ fuel, (if nl > 1 then (pushStack stack ll nl).bind fun stack => q.qsortLoop (fuel + k) ls ns stack mem
        else q.qsortLoop (fuel + k) ls ns stack mem) = q.popStack fuel stack r := by
  by_cases hone : nl > 1
  · obtain ⟨k₁, r₁, hk₁, hsmall⟩ := ih ns (by omega) ls ((ll, nl) :: stack) mem (hroom.half hn hns _)
    obtain ⟨k₂, r, hk₂, hlarge⟩ := ih nl hnl ll stack r₁ (hroom.smaller hnl)
    refine ⟨k₂ + k₁, r₁, r, by omega, hsmall.rearranged, hsmall.sorted, hlarge.rearranged, hlarge.sorted, fun fuel => ?_⟩
    rw [if_pos hone, hroom.push hn, Option.bind_some, ← Nat.add_assoc, hsmall.run]
    exact hlarge.run fuel
  · obtain ⟨k, r, hk, hsmall⟩ := ih ns (by omega) ls stack mem (hroom.smaller (by omega))
    refine ⟨k, r, r, by omega, hsmall.rearranged, hsmall.sorted, .refl _ _ _, sortedOn_of_le_one (by omega), fun fuel => ?_⟩
    rw [if_neg hone, hsmall.run]

/-- **Every segment is sorted**, in at most `2 * n + 1` rounds, and the stack has room for it. -/
theorem SortArgs.sorts_segment (h : TotalCompare q.compare) (n : Nat) : ∀ (lb : Nat) (stack : List (Nat × Nat))
    (mem : Nat → UInt8), HasRoom n stack → ∃ k r, k ≤ 2 * n + 1 ∧ q.Sorts k lb n stack mem r := by
  induction n using Nat.strongRecOn with
  | ind n ih =>
    intro lb stack mem hroom
    by_cases hn : 7 ≤ n
    · obtain ⟨r₀, j, hpart, hj, hjn, hr₀, hparted⟩ := SortArgs.partition_spec h lb hn mem
      have hright : lb + n - (j + 1) = n - (j - lb) - 1 := by omega
      by_cases hside : j - lb < n - (j - lb) - 1
      · obtain ⟨k, r₁, r, hk, hr₁, hs₁, hr, hs, hrun⟩ := SortArgs.sorts_sides hn ih lb (j - lb) (j + 1)
          (n - (j - lb) - 1) (by omega) (by omega) hroom r₀
        rw [← hright] at hr hs
        have hkept : SortedOn (NotAfter q.compare) lb (j - lb) (q.elements r) :=
          hs₁.congr fun p _ hp => hr.eq_outside (by omega)
        refine ⟨k + 1, r, by omega, (hr₀.trans (hr₁.mono le_rfl (by omega))).trans (hr.mono (by omega) (by omega)),
          ((hparted.left_side hr₁ hj).right_side hr hjn).sorted h.notAfter_trans hkept hs, fun fuel => ?_⟩
        rw [← Nat.add_assoc, SortArgs.qsortLoop, if_pos hn]
        simp only [hpart, Option.bind_eq_bind, Option.bind_some, if_pos hside]
        exact hrun fuel
      · obtain ⟨k, r₁, r, hk, hr₁, hs₁, hr, hs, hrun⟩ := SortArgs.sorts_sides hn ih (j + 1) (n - (j - lb) - 1) lb
          (j - lb) (by omega) (by omega) hroom r₀
        rw [← hright] at hr₁ hs₁
        have hkept : SortedOn (NotAfter q.compare) (j + 1) (lb + n - (j + 1)) (q.elements r) :=
          hs₁.congr fun p hp _ => hr.eq_outside (by omega)
        refine ⟨k + 1, r, by omega, (hr₀.trans (hr₁.mono (by omega) (by omega))).trans (hr.mono le_rfl (by omega)),
          ((hparted.right_side hr₁ hjn).left_side hr hj).sorted h.notAfter_trans hs hkept, fun fuel => ?_⟩
        rw [← Nat.add_assoc, SortArgs.qsortLoop, if_pos hn]
        simp only [hpart, Option.bind_eq_bind, Option.bind_some, if_neg hside]
        exact hrun fuel
    · exact ⟨1, _, by omega, SortArgs.sorts_small h (by omega) lb stack mem⟩

def SortArgs.contents (q : SortArgs) (nmemb : Nat) (mem : Nat → UInt8) : List (Fin q.size → UInt8) :=
  (List.range nmemb).map (q.elements mem)

theorem SortArgs.contents_pairwise {nmemb : Nat} (hsorted : SortedOn (NotAfter q.compare) 0 nmemb (q.elements mem)) :
    (q.contents nmemb mem).Pairwise fun x y => q.compare x y ≤ 0 := by
  refine List.pairwise_map.mpr (List.pairwise_lt_range.imp_of_mem fun {p p'} _ hp' hlt => ?_)
  exact hsorted p p' (Nat.zero_le p) hlt (by rw [Nat.zero_add]; exact List.mem_range.mp hp')

/-- **`qe_qsort_r` sorts.** It ends, has room on its stack, and leaves a permutation of the elements in order. -/
theorem qeQsortR_sorts (h : TotalCompare q.compare) {nmemb : Nat} (hnmemb : nmemb < 2 ^ 64) (mem : Nat → UInt8) :
    ∃ r, q.qeQsortR nmemb mem = some r ∧ (q.contents nmemb r).Perm (q.contents nmemb mem) ∧
      (q.contents nmemb r).Pairwise fun x y => q.compare x y ≤ 0 := by
  by_cases hsmall : nmemb < 2 ∨ q.size = 0
  · refine ⟨mem, if_pos hsmall, .refl _, SortArgs.contents_pairwise ?_⟩
    rcases hsmall with hnmemb | hsize
    · exact sortedOn_of_le_one (by omega)
    · -- elements of no bytes are all the same
      have hempty : ∀ x y : Fin q.size → UInt8, x = y := fun x y => funext fun t => absurd t.isLt (by omega)
      exact fun p p' _ _ _ => hempty (q.elements mem p') (q.elements mem p) ▸ h.notAfter_refl _
  · obtain ⟨k, r, hk, hr, hsorted, hrun⟩ := SortArgs.sorts_segment h nmemb 0 [] mem hnmemb
    have hpush : pushStack [] 0 nmemb = some [(0, nmemb)] := rfl
    have hend := hrun (2 * nmemb + 1 - k)
    rw [Nat.sub_add_cancel hk] at hend
    refine ⟨r, ?_, hr.perm, SortArgs.contents_pairwise hsorted⟩
    rw [SortArgs.qeQsortR, if_neg hsmall, hpush]
    exact hend

end Code

/-- Bytes at `base`, in order of their value. -/
def sortedBytes : SortArgs where
  base := 3
  size := 1
  compare x y := (x 0).toNat - (y 0).toNat

theorem qeQsortR_sorts_bytes :
    ∃ r, sortedBytes.qeQsortR 9 (fun p => UInt8.ofNat (5 * p)) = some r ∧
      (sortedBytes.contents 9 r).Perm (sortedBytes.contents 9 fun p => UInt8.ofNat (5 * p)) ∧
      (sortedBytes.contents 9 r).Pairwise fun x y => sortedBytes.compare x y ≤ 0 :=
  qeQsortR_sorts ⟨fun x y => by simp only [sortedBytes]; omega, fun x y z => by simp only [sortedBytes]; omega⟩
    (by decide) _

end Qemacs
