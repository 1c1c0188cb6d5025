import Qemacs.Registry.Cache
import Mathlib.Data.List.Perm.Subperm
import Mathlib.Data.Nat.Digits.Lemmas

/-!
# Names

`eb_set_buffer_name` takes the first name that can be had: of the names it makes of the one it is
asked for, the first that is not empty and that no other buffer has. When every one of them is
taken its count goes on past the largest `int`, so all of this is about a name of which one can be
had. With fewer than 999,999,999 buffers that is every name, since the numbers of up to nine digits
make different names (`nameFree_of_few`).
-/

namespace Qemacs

open Lib

/-! ## The choice of a name -/

/-- The loop ends at the `n`th name: it is one that can be had, and those before it cannot. -/
structure Chosen (taken : List (List UInt8)) (name1 : List UInt8) (n : Nat) : Prop where
  int : n ≤ intMax.toNat
  named : bufferName name1 n ≠ []
  free : bufferName name1 n ∉ taken
  first : ∀ k, k < n → bufferName name1 k = [] ∨ bufferName name1 k ∈ taken

/-- One of the names that are tried for `name1` can be had. -/
def NameFree (taken : List (List UInt8)) (name1 : List UInt8) : Prop :=
  ∃ n, n ≤ intMax.toNat ∧ bufferName name1 n ≠ [] ∧ bufferName name1 n ∉ taken

variable {name1 : List UInt8}

theorem NameFree.chosen {taken : List (List UInt8)} (h : NameFree taken name1) : ∃ n, Chosen taken name1 n := by
  classical
  obtain ⟨hint, hnamed, hfree⟩ := Nat.find_spec h
  refine ⟨Nat.find h, hint, hnamed, hfree, ?_⟩
  intro k hk
  have hmin := Nat.find_min h hk
  by_contra hnot
  rw [not_or] at hnot
  exact hmin ⟨by omega, hnot.1, hnot.2⟩

/-! ## Numbered names -/

theorem qeIsdigit_decimal {n : Nat} {c : UInt8} (hc : c ∈ decimal n) : qeIsdigit c = true := by
  have hdigit : ∀ d, d < 10 → qeIsdigit (UInt8.ofNat (48 + d)) = true := by decide +kernel
  obtain ⟨d, hd, rfl⟩ := List.mem_map.mp hc
  exact hdigit d (Nat.digits_lt_base (by decide) (List.mem_reverse.mp hd))

variable {n : Nat}

theorem decimal_inj {m : Nat} (h : decimal n = decimal m) : n = m := by
  have hback : ∀ k, ((decimal k).map fun c => c.toNat - 48).reverse = Nat.digits 10 k := by
    intro k
    rw [decimal, List.map_map, ← List.map_reverse, List.reverse_reverse]
    conv_rhs => rw [← List.map_id (Nat.digits 10 k)]
    refine List.map_congr_left fun d hd => ?_
    have hd10 : d < 10 := Nat.digits_lt_base (by decide) hd
    show (UInt8.ofNat (48 + d)).toNat - 48 = d
    rw [UInt8.toNat_ofNat_of_lt' (show 48 + d < 256 by omega)]
    omega
  exact Nat.digits_inj_iff.mp (by rw [← hback n, ← hback m, h])

theorem length_decimal_le (hn : n < 10 ^ 9) : (decimal n).length ≤ 9 := by
  rw [decimal, List.length_map, List.length_reverse]
  exact (Nat.digits_length_le_iff (by decide) n).mpr hn

/-- A number in brackets can be read off again, when there is room for its digits. -/
theorem takeWhile_bracketed (room : Nat) (c e : UInt8) (he : qeIsdigit e = false) (hroom : (decimal n).length < room) :
    ((([c] ++ decimal n ++ [e]).take room).drop 1).takeWhile qeIsdigit = decimal n := by
  obtain ⟨rest, hrest⟩ : ∃ rest, rest = [e].take (room - (1 + (decimal n).length)) := ⟨_, rfl⟩
  have htake : ([c] ++ decimal n ++ [e]).take room = c :: (decimal n ++ rest) := by
    rw [List.take_append, List.take_of_length_le (by simp; omega)]
    simp [hrest, Nat.add_comm]
  have hstop : rest.takeWhile qeIsdigit = [] := by
    cases hr : rest with
    | nil => rfl
    | cons x xs =>
      have hx : x ∈ [e] := List.mem_of_mem_take (i := room - (1 + (decimal n).length)) (by
        rw [← hrest, hr]; exact List.mem_cons_self)
      rw [List.mem_singleton.mp hx, List.takeWhile_cons, he]
      rfl
  rw [htake, List.drop_one, List.tail_cons,
    List.takeWhile_append_of_pos fun c hc => qeIsdigit_decimal hc, hstop, List.append_nil]

/-- A numbered name is a fixed text and a number in brackets, with room for nine digits. -/
theorem bufferName_succ (name1 : List UInt8) :
    ∃ (front : List UInt8) (c e : UInt8) (room : Nat), 10 ≤ room ∧ qeIsdigit e = false ∧
      ∀ n, bufferName name1 (n + 1) = front ++ ([c] ++ decimal (n + 1) ++ [e]).take room := by
  obtain ⟨name, hname⟩ : ∃ name, name = name1.take (maxBuffernameSize - 11) := ⟨_, rfl⟩
  have hlen : name.length ≤ 245 := by
    rw [hname, List.length_take]
    exact Nat.min_le_left _ _
  have hsize : maxBuffernameSize = 256 := rfl
  by_cases hsystem : name.getLast? = some (ascii '*')
  · refine ⟨name.take (name.length - 1), ascii '-', ascii '*',
      maxBuffernameSize - (name.length - 1) - 1, by omega, by decide, fun n => ?_⟩
    simp only [bufferName, ← hname, if_pos hsystem]
  · refine ⟨name.take name.length, ascii '<', ascii '>', maxBuffernameSize - name.length - 1,
      by omega, by decide, fun n => ?_⟩
    simp only [bufferName, ← hname, if_neg hsystem]

theorem bufferName_succ_ne_nil (name1 : List UInt8) (n : Nat) : bufferName name1 (n + 1) ≠ [] := by
  obtain ⟨front, c, e, room, hroom, -, heq⟩ := bufferName_succ name1
  obtain ⟨room, rfl⟩ : ∃ k, room = k + 1 := ⟨room - 1, by omega⟩
  rw [heq]
  simp

theorem bufferName_inj {m : Nat} (hn : n + 1 < 10 ^ 9) (hm : m + 1 < 10 ^ 9)
    (h : bufferName name1 (n + 1) = bufferName name1 (m + 1)) : n = m := by
  obtain ⟨front, c, e, room, hroom, he, heq⟩ := bufferName_succ name1
  rw [heq, heq] at h
  have htext := List.append_cancel_left h
  have hnlen := length_decimal_le hn
  have hmlen := length_decimal_le hm
  have hdec : decimal (n + 1) = decimal (m + 1) := by
    rw [← takeWhile_bracketed room c e he (by omega), htext, takeWhile_bracketed room c e he (by omega)]
  exact Nat.succ.inj (decimal_inj hdec)

/-- **With fewer than 999,999,999 names taken, every request can be granted.** -/
theorem nameFree_of_few {taken : List (List UInt8)} (h : taken.length + 1 < 10 ^ 9)
    (name1 : List UInt8) : NameFree taken name1 := by
  by_contra hnone
  -- one more number than there are names
  obtain ⟨tries, htries⟩ : ∃ tries, tries = (List.range (taken.length + 1)).map fun k =>
      bufferName name1 (k + 1) := ⟨_, rfl⟩
  have hnodup : tries.Nodup := by
    rw [htries]
    refine List.Nodup.map_on ?_ List.nodup_range
    intro n hn m hm heq
    rw [List.mem_range] at hn hm
    exact bufferName_inj (by omega) (by omega) heq
  have hsub : tries ⊆ taken := by
    intro name hname
    rw [htries] at hname
    obtain ⟨k, hk, rfl⟩ := List.mem_map.mp hname
    rw [List.mem_range] at hk
    by_contra hfree
    exact hnone ⟨k + 1, by simp only [intMax]; omega, bufferName_succ_ne_nil name1 k, hfree⟩
  have hle := (hnodup.subperm hsub).length_le
  rw [htries, List.length_map, List.length_range] at hle
  omega

/-! ## The loop -/

/-- The names that are taken. -/
def Registry.names (r : Registry) : List (List UInt8) := r.bufferCache.map r.nameOf

/-- The names of the other buffers. -/
def Registry.namesBut (r : Registry) (b : BufferId) : List (List UInt8) :=
  (r.bufferCache.filter (· ≠ b)).map r.nameOf

variable {r : Registry} {b : BufferId}

theorem Registry.mem_namesBut {name : List UInt8} :
    name ∈ r.namesBut b ↔ ∃ x ∈ r.bufferCache, x ≠ b ∧ r.nameOf x = name := by
  simp [Registry.namesBut, and_assoc]

/-- **The loop finds the name.** -/
theorem Registry.Sorted.nameLoop (h : r.Sorted) (hsmall : r.Small) (hnamed : ∀ x ∈ r.bufferCache, r.nameOf x ≠ [])
    (hn : Chosen (r.namesBut b) name1 n) : ∀ (d k : Nat), k + d = n → ∀ rounds, d ≤ rounds →
    r.nameLoop b name1 rounds k = some
      (if b ∈ r.bufferCache ∧ r.nameOf b = bufferName name1 n then none
        else some (bufferName name1 n)) := by
  intro d
  induction d with
  | zero =>
    intro k hk rounds _
    obtain rfl : k = n := by omega
    obtain ⟨found, hfind, hfound⟩ := h.find hsmall (bufferName name1 k)
    unfold Registry.nameLoop
    simp only [hfind, Option.bind_eq_bind, Option.bind_some]
    by_cases hown : b ∈ r.bufferCache ∧ r.nameOf b = bufferName name1 k
    · rw [(hfound b).mpr hown, if_pos hown, if_pos (.inl rfl), if_pos rfl]
      rfl
    · have hnone : found = none := by
        cases hf : found with
        | none => rfl
        | some x =>
          exfalso
          obtain ⟨hx, hname⟩ := (hfound x).mp hf
          by_cases hxb : x = b
          · exact hown (hxb ▸ ⟨hx, hname⟩)
          · exact hn.free (Registry.mem_namesBut.mpr ⟨x, hx, hxb, hname⟩)
      rw [hnone, if_neg hown, if_neg]
      · rfl
      · rintro (hsome | hempty)
        · exact absurd hsome (by simp)
        · exact hn.named hempty
  | succ d ih =>
    intro k hk rounds hrounds
    obtain ⟨rounds, rfl⟩ : ∃ m, rounds = m + 1 := ⟨rounds - 1, by omega⟩
    obtain ⟨found, hfind, hfound⟩ := h.find hsmall (bufferName name1 k)
    unfold Registry.nameLoop
    simp only [hfind, Option.bind_eq_bind, Option.bind_some]
    -- the name is empty, or another buffer has it
    have hgo : (found.isSome ∨ bufferName name1 k = []) ∧ found ≠ some b := by
      rcases hn.first k (by omega) with hempty | htaken
      · refine ⟨.inr hempty, fun hb => ?_⟩
        obtain ⟨hb, hname⟩ := (hfound b).mp hb
        exact hnamed b hb (hname.trans hempty)
      · obtain ⟨x, hx, hxb, hname⟩ := Registry.mem_namesBut.mp htaken
        have hfx := (hfound x).mpr ⟨hx, hname⟩
        rw [hfx]
        exact ⟨.inl rfl, fun heq => hxb (Option.some.inj heq)⟩
    rw [if_pos hgo.1, if_neg hgo.2]
    exact ih (k + 1) (by omega) rounds (by omega)

/-- `b` has been named in the step from `r` to `r'`. -/
structure Registry.Names (r r' : Registry) (b : BufferId) (name : List UInt8) : Prop where
  heap : ∃ info, r.heap b = some info ∧
    r'.heap = fun x => if x = b then some { info with name := name } else r.heap x
  firstBuffer : r'.firstBuffer = r.firstBuffer
  next : r'.next = r.next
  sorted : r'.Sorted
  cached : ∀ x, x ∈ r'.bufferCache ↔ x = b ∨ x ∈ r.bufferCache
  length : r'.bufferCache.length ≤ r.bufferCache.length + 1

@[simp] theorem Registry.heap_update (r : Registry) (b x : BufferId) (f : BufferInfo → BufferInfo) :
    (r.update b f).heap x = if x = b then (r.heap b).map f else r.heap x := rfl

theorem Registry.nameOf_congr {r' : Registry} {x : BufferId} (h : r'.heap x = r.heap x) :
    r'.nameOf x = r.nameOf x := by
  rw [Registry.nameOf, Registry.nameOf, h]

/-- **`eb_set_buffer_name` gives a buffer the first name that can be had**, a new buffer or one
that is in the cache. -/
theorem Registry.Sorted.setBufferName (h : r.Sorted) (hsmall : r.Small)
    (hnamed : ∀ x ∈ r.bufferCache, r.nameOf x ≠ []) {info : BufferInfo} (hinfo : r.heap b = some info)
    (hb : b ∈ r.bufferCache ∨ info.name = []) (hn : Chosen (r.namesBut b) name1 n) :
    ∃ r', r.ebSetBufferName b name1 = some (0, r') ∧ r.Names r' b (bufferName name1 n) := by
  have hloop := h.nameLoop hsmall hnamed hn n 0 (by omega) intMax.toNat hn.int
  have hname := Registry.nameOf_of_heap hinfo
  unfold Registry.ebSetBufferName
  rw [hloop]
  by_cases hown : b ∈ r.bufferCache ∧ r.nameOf b = bufferName name1 n
  · rw [if_pos hown]
    refine ⟨r, rfl, ⟨info, hinfo, ?_⟩, rfl, rfl, h, ?_, Nat.le_succ _⟩
    · funext x
      by_cases hx : x = b
      · rw [if_pos hx, hx, hinfo, ← hown.2, hname]
      · rw [if_neg hx]
    · intro x
      exact ⟨.inr, fun hx => hx.elim (fun heq => heq ▸ hown.1) id⟩
  · rw [if_neg hown]
    obtain ⟨r₁, hr₁⟩ : ∃ r₁ : Registry, r₁ = { r with bufferCache := r.bufferCache.filter (· ≠ b) } := ⟨_, rfl⟩
    -- whether `b` was in the cache or not, it is not there any more
    have hremove : ∃ e, r.ebCacheRemove b = some (e, r₁) := by
      by_cases hcached : b ∈ r.bufferCache
      · exact ⟨0, by rw [hr₁]; exact h.remove hsmall hcached⟩
      · have hnew : info.name = [] := hb.resolve_left hcached
        have hsame : r₁ = r := by
          rw [hr₁, List.filter_eq_self.mpr]
          intro x hx
          have hne : x ≠ b := fun heq => hcached (heq ▸ hx)
          simpa using hne
        rw [hsame]
        exact ⟨-1, h.remove_unnamed hsmall hinfo (by rw [hnew]; exact hnamed)⟩
    obtain ⟨e, hremove⟩ := hremove
    obtain ⟨r₂, hr₂⟩ : ∃ r₂, r₂ = r₁.update b fun info =>
        { info with name := bufferName name1 n } := ⟨_, rfl⟩
    have hcache₂ : r₂.bufferCache = r.bufferCache.filter (· ≠ b) := by rw [hr₂, hr₁]; rfl
    have hheap₂ : ∀ x, r₂.heap x
        = if x = b then some { info with name := bufferName name1 n } else r.heap x := by
      intro x
      rw [hr₂, Registry.heap_update, hr₁, hinfo]
      rfl
    have hother : ∀ x ∈ r₂.bufferCache, x ∈ r.bufferCache ∧ x ≠ b ∧ r₂.heap x = r.heap x := by
      intro x hx
      rw [hcache₂, List.mem_filter] at hx
      have hne : x ≠ b := by simpa using hx.2
      exact ⟨hx.1, hne, by rw [hheap₂, if_neg hne]⟩
    have hsorted₂ : r₂.Sorted := by
      refine (h.filter (· ≠ b)).congr hcache₂ ?_
      intro x hx i hi
      have hne : x ≠ b := by simpa using (List.mem_filter.mp hx).2
      exact ⟨i, by rw [hheap₂, if_neg hne]; exact hi, rfl⟩
    have hlen₂ : r₂.bufferCache.length ≤ r.bufferCache.length := by
      rw [hcache₂]
      exact List.length_filter_le _ _
    obtain ⟨cache, hinsert, hsorted, hmem, hlen⟩ := hsorted₂.insert (Nat.le_trans hlen₂ hsmall)
      (b := b) (hheap₂ b ▸ if_pos rfl) (by
        intro x hx hxname
        obtain ⟨hxc, hne, hheap⟩ := hother x hx
        exact hn.free (Registry.mem_namesBut.mpr
          ⟨x, hxc, hne, (Registry.nameOf_congr hheap).symm.trans hxname⟩))
    refine ⟨{ r₂ with bufferCache := cache }, ?_, ⟨info, hinfo, funext hheap₂⟩, ?_, ?_, hsorted, ?_, ?_⟩
    · simp only [hremove, Option.bind_eq_bind, Option.bind_some, ← hr₂]
      exact hinsert
    · rw [hr₂, hr₁]; rfl
    · rw [hr₂, hr₁]; rfl
    · intro x
      rw [hmem, hcache₂, List.mem_filter]
      by_cases hx : x = b
      · simp [hx]
      · simp [hx]
    · show cache.length ≤ _
      omega

end Qemacs
