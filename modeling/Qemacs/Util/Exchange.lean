import Qemacs.Lib.Rearrange
import Mathlib.Data.Nat.Bitwise

/-!
# Exchanging two elements of an array

`qe_qsort_r` knows its elements by their size only. `exchange_func` picks one of five functions for exchanging two of
them, byte by byte or in words where base and size are aligned. They all do the same: the two elements change places,
and the others stay.
-/

namespace Qemacs

/-- A store of `w` bytes at `p`. -/
def storeWord (w p : Nat) (word mem : Nat → UInt8) : Nat → UInt8 :=
  fun q => if p ≤ q ∧ q < p + w then word (q - p) else mem q

/-- `t = *a; *a = *b; *b = t`, of words of `w` bytes. -/
def exchangeWord (w a b : Nat) (mem : Nat → UInt8) : Nat → UInt8 :=
  let t : Nat → UInt8 := fun q => mem (a + q)
  let mem := storeWord w a (fun q => mem (b + q)) mem
  storeWord w b t mem

/-- The loop of `exchange_bytes`, `exchange_ints` and `exchange_longs`. -/
def exchangeWords (w : Nat) : Nat → Nat → Nat → (Nat → UInt8) → Nat → UInt8
  | 0, _, _, mem => mem
  | count + 1, a, b, mem => exchangeWords w count (a + w) (b + w) (exchangeWord w a b mem)

def exchangeBytes (a b size : Nat) (mem : Nat → UInt8) : Nat → UInt8 := exchangeWords 1 size a b mem

def exchangeInts (a b size : Nat) (mem : Nat → UInt8) : Nat → UInt8 := exchangeWords 4 (size / 4) a b mem

def exchangeOneInt (a b _size : Nat) (mem : Nat → UInt8) : Nat → UInt8 := exchangeWord 4 a b mem

def exchangeLongs (a b size : Nat) (mem : Nat → UInt8) : Nat → UInt8 := exchangeWords 8 (size / 8) a b mem

def exchangeOneLong (a b _size : Nat) (mem : Nat → UInt8) : Nat → UInt8 := exchangeWord 8 a b mem

/-- `exchange_func`, with a `long` of eight bytes. -/
def exchangeFunc (base size : Nat) : Nat → Nat → Nat → (Nat → UInt8) → Nat → UInt8 :=
  if (base ||| size) &&& 7 = 0 then
    if size = 8 then exchangeOneLong else exchangeLongs
  else if (base ||| size) &&& 3 = 0 then
    if size = 4 then exchangeOneInt else exchangeInts
  else exchangeBytes

/-! ## Two regions change places -/

/-- The `size` bytes at `a` and those at `b` have changed places. -/
def Exchanged (a b size : Nat) (mem r : Nat → UInt8) : Prop :=
  ∀ q, r q = if a ≤ q ∧ q < a + size then mem (b + (q - a))
    else if b ≤ q ∧ q < b + size then mem (a + (q - b)) else mem q

/-- Two regions of one size do not overlap, unless they are the same. -/
def Apart (a b size : Nat) : Prop := a = b ∨ a + size ≤ b ∨ b + size ≤ a

theorem exchangeWord_exchanged {w a b : Nat} (h : Apart a b w) (mem : Nat → UInt8) :
    Exchanged a b w mem (exchangeWord w a b mem) := by
  intro q
  unfold exchangeWord storeWord
  dsimp only
  rcases h with rfl | h
  · split_ifs <;> rfl
  · split_ifs with hb ha <;> first | rfl | omega

theorem exchangeWords_exchanged (w : Nat) : ∀ (count a b : Nat) (mem : Nat → UInt8), Apart a b (count * w) →
    Exchanged a b (count * w) mem (exchangeWords w count a b mem)
  | 0, a, b, mem, _ => fun q => by
      rw [exchangeWords, if_neg (by omega), if_neg (by omega)]
  | count + 1, a, b, mem, h => fun q => by
      rw [Nat.succ_mul] at h ⊢
      have hfirst := exchangeWord_exchanged (w := w) (a := a) (b := b) (by unfold Apart at h ⊢; omega) mem
      have hrest := exchangeWords_exchanged w count (a + w) (b + w) (exchangeWord w a b mem)
        (by unfold Apart at h ⊢; omega) q
      rw [exchangeWords, hrest, hfirst, hfirst, hfirst]
      unfold Apart at h
      generalize count * w = s at *
      -- the first word is behind us, or this byte is in it, or in neither region
      split_ifs <;> first | omega | rfl | (congr 1; omega)

theorem dvd_of_and_eq_zero {base size n : Nat} (h : (base ||| size) &&& (2 ^ n - 1) = 0) : 2 ^ n ∣ size := by
  rw [Nat.and_two_pow_sub_one_eq_mod, Nat.or_mod_two_pow, Nat.or_eq_zero_iff] at h
  exact Nat.dvd_of_mod_eq_zero h.2

/-- **Whatever function is picked**, it exchanges the two regions. -/
theorem exchangeFunc_exchanged (base : Nat) {size a b : Nat} (h : Apart a b size) (mem : Nat → UInt8) :
    Exchanged a b size mem (exchangeFunc base size a b size mem) := by
  have hwords {w : Nat} (hw : w ∣ size) : Exchanged a b size mem (exchangeWords w (size / w) a b mem) := by
    have hcount : size / w * w = size := Nat.div_mul_cancel hw
    have hex := exchangeWords_exchanged w (size / w) a b mem (hcount.symm ▸ h)
    rwa [hcount] at hex
  unfold exchangeFunc
  split_ifs with hlong hsize hint hsize
  · exact hsize ▸ exchangeWord_exchanged (hsize ▸ h) mem
  · exact hwords (dvd_of_and_eq_zero (n := 3) hlong)
  · exact hsize ▸ exchangeWord_exchanged (hsize ▸ h) mem
  · exact hwords (dvd_of_and_eq_zero (n := 2) hint)
  · have hbytes := hwords (w := 1) (one_dvd size)
    rwa [Nat.div_one] at hbytes

/-! ## Elements -/

/-- The element `k` of an array. -/
def element (base size : Nat) (mem : Nat → UInt8) (k : Nat) : Fin size → UInt8 := fun t => mem (base + k * size + t)

/-- `exchange(i, j, size)`, of the elements `i` and `j`. -/
def exchange (base size i j : Nat) (mem : Nat → UInt8) : Nat → UInt8 :=
  exchangeFunc base size (base + i * size) (base + j * size) size mem

theorem element_before {i j : Nat} (size : Nat) (h : i < j) : i * size + size ≤ j * size := by
  rw [← Nat.succ_mul]
  exact Nat.mul_le_mul_right size h

theorem apart_elements (base size i j : Nat) : Apart (base + i * size) (base + j * size) size := by
  rcases Nat.lt_trichotomy i j with hij | rfl | hij
  · have hbefore := element_before size hij
    exact .inr (.inl (by omega))
  · exact .inl rfl
  · have hbefore := element_before size hij
    exact .inr (.inr (by omega))

theorem in_element_iff {base size k i t : Nat} (ht : t < size) :
    (base + i * size ≤ base + k * size + t ∧ base + k * size + t < base + i * size + size) ↔ k = i := by
  rcases Nat.lt_trichotomy k i with hki | rfl | hki
  · have hbefore := element_before size hki
    exact iff_of_false (by omega) (by omega)
  · exact iff_of_true (by omega) rfl
  · have hbefore := element_before size hki
    exact iff_of_false (by omega) (by omega)

/-- **The two elements change places.** -/
theorem element_exchange (base size i j : Nat) (mem : Nat → UInt8) (k : Nat) :
    element base size (exchange base size i j mem) k = element base size mem (Equiv.swap i j k) := by
  funext t
  rw [element, exchange, exchangeFunc_exchanged base (apart_elements base size i j) mem]
  rw [if_congr (in_element_iff t.isLt) rfl (if_congr (in_element_iff t.isLt) rfl rfl)]
  split_ifs with hi hj
  · subst hi
    rw [Equiv.swap_apply_left, element]
    congr 1
    omega
  · subst hj
    rw [Equiv.swap_apply_right, element]
    congr 1
    omega
  · rw [Equiv.swap_apply_of_ne_of_ne hi hj, element]

end Qemacs
