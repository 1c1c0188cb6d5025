import Qemacs.Lib.Splice
import Qemacs.Registry.Basic
import Mathlib.Data.List.Nodup

/-!
# The cache is sorted, and searching it finds

While the cache is sorted by name and its buffers are alive, a search in it has a meaning and a
result: the index of the buffer with the name, or the place where it belongs. From that one fact
follow what `eb_find` returns and that `eb_cache_remove` and `eb_cache_insert` keep the order.

The search needs the sum of two indices to be an `int`, so all of it is about caches of at most
2^30 entries.
-/

namespace Qemacs

open Lib

/-- The name of a buffer; a freed buffer has none. -/
def Registry.nameOf (r : Registry) (x : BufferId) : List UInt8 :=
  match r.heap x with
  | some info => info.name
  | none => []

/-- The cache is in order. -/
structure Registry.Sorted (r : Registry) : Prop where
  live : ∀ x ∈ r.bufferCache, (r.heap x).isSome
  order : (r.bufferCache.map r.nameOf).Pairwise fun s t => strcmp s t = .lt

/-- A cache that can be searched. -/
def Registry.Small (r : Registry) : Prop := r.bufferCache.length ≤ 2 ^ 30

theorem strcmp_self (s : List UInt8) : strcmp s s = .eq :=
  show compare s s = .eq from Std.ReflCmp.compare_self

variable {r : Registry} {info : BufferInfo}

theorem Registry.nameOf_of_heap {x : BufferId} (h : r.heap x = some info) : r.nameOf x = info.name := by
  rw [Registry.nameOf, h]

/-! ## Distinct names -/

theorem Registry.Sorted.nodup_names (h : r.Sorted) : (r.bufferCache.map r.nameOf).Nodup := by
  refine h.order.imp ?_
  intro s t hlt heq
  rw [heq, strcmp_self] at hlt
  exact absurd hlt (by decide)

theorem Registry.Sorted.nodup (h : r.Sorted) : r.bufferCache.Nodup :=
  h.nodup_names.of_map _

theorem Registry.Sorted.name_inj (h : r.Sorted) {x y : BufferId} (hx : x ∈ r.bufferCache) (hy : y ∈ r.bufferCache)
    (hname : r.nameOf x = r.nameOf y) : x = y :=
  List.inj_on_of_nodup_map h.nodup_names hx hy hname

/-! ## The search -/

theorem Registry.Sorted.compareAt_eq (h : r.Sorted) (name : List UInt8) :
    r.compareAt name = fun m => ((r.bufferCache.map r.nameOf)[m]?).map (compare name) := by
  funext m
  rw [Registry.compareAt, List.getElem?_map]
  cases hm : r.bufferCache[m]? with
  | none => rfl
  | some b =>
    obtain ⟨info, hinfo⟩ := Option.isSome_iff_exists.mp (h.live b (List.mem_of_getElem? hm))
    simp only [Option.map_some, Registry.nameOf, hinfo, Option.bind_eq_bind, Option.bind_some]
    rfl

/-- **The search finds the buffer with the name, or the place where it belongs.** -/
theorem Registry.Sorted.locate (h : r.Sorted) (hsmall : r.Small) (name : List UInt8) :
    ∃ pos, r.ebCacheLocate name = some pos ∧
      ((∃ A x B, r.bufferCache = A ++ x :: B ∧ pos = A.length ∧ r.nameOf x = name) ∨
        ∃ A B, r.bufferCache = A ++ B ∧ pos = -(A.length : Int) - 1 ∧
          (∀ x ∈ A, strcmp (r.nameOf x) name = .lt) ∧
          ∀ x ∈ B, strcmp name (r.nameOf x) = .lt) := by
  obtain ⟨names, hnames⟩ : ∃ names, names = r.bufferCache.map r.nameOf := ⟨_, rfl⟩
  have hlen : names.length = r.bufferCache.length := by rw [hnames, List.length_map]
  have hgraded := graded_of_sorted (show names.Pairwise fun a b => compare a b = .lt by
    rw [hnames]; exact h.order) name
  unfold Registry.Small at hsmall
  obtain ⟨⟨found, i⟩, hbisect, hplace⟩ := bisect_spec intMax.toNat hgraded
    (by rw [hlen]; simp only [intMax]; omega) names.length (Nat.le_refl _) (Nat.zero_le _)
    (Nat.le_refl _) (fun k hk => absurd hk (Nat.not_lt_zero k))
    (fun k hle hlt => absurd hlt (Nat.not_lt.mpr hle))
  have hlocate : r.ebCacheLocate name = some (if found then (i : Int) else -(i : Int) - 1) := by
    rw [Registry.ebCacheLocate, h.compareAt_eq, ← hnames, ← hlen, hbisect]
    cases found <;> rfl
  cases found with
  | true =>
    obtain ⟨hi, heq⟩ := hplace
    have hi' : i < r.bufferCache.length := by omega
    refine ⟨_, hlocate, .inl ⟨r.bufferCache.take i, r.bufferCache[i], r.bufferCache.drop (i + 1), ?_, ?_, ?_⟩⟩
    · rw [List.getElem_cons_drop, List.take_append_drop]
    · rw [List.length_take, Nat.min_eq_left (Nat.le_of_lt hi')]
      rfl
    · simp only [hnames, List.getElem?_map, List.getElem?_eq_getElem hi', Option.map_some] at heq
      exact (Std.LawfulEqOrd.eq_of_compare (Option.some.inj heq)).symm
  | false =>
    obtain ⟨hi, hbefore, hafter⟩ := hplace
    refine ⟨_, hlocate, .inr ⟨r.bufferCache.take i, r.bufferCache.drop i,
      (List.take_append_drop i _).symm, ?_, ?_, ?_⟩⟩
    · rw [List.length_take, Nat.min_eq_left (by omega)]
      rfl
    · intro x hx
      obtain ⟨k, hk, hget⟩ := List.mem_iff_getElem.mp hx
      rw [List.length_take] at hk
      rw [List.getElem_take] at hget
      have hgt := hbefore k (by omega)
      simp only [hnames, List.getElem?_map] at hgt
      rw [List.getElem?_eq_getElem (by omega), hget] at hgt
      exact show compare _ _ = .lt from Std.OrientedCmp.lt_of_gt (Option.some.inj hgt)
    · intro x hx
      obtain ⟨k, hk, hget⟩ := List.mem_iff_getElem.mp hx
      rw [List.length_drop] at hk
      rw [List.getElem_drop] at hget
      have hlt := hafter (i + k) (Nat.le_add_right _ _) (by omega)
      simp only [hnames, List.getElem?_map] at hlt
      rw [List.getElem?_eq_getElem (by omega), hget] at hlt
      exact Option.some.inj hlt

/-- **`eb_find` returns the buffer with the name if there is one.** -/
theorem Registry.Sorted.find (h : r.Sorted) (hsmall : r.Small) (name : List UInt8) :
    ∃ found, r.ebFind name = some found ∧ ∀ x, found = some x ↔ x ∈ r.bufferCache ∧ r.nameOf x = name := by
  obtain ⟨pos, hpos, ⟨A, y, B, hcache, hat, hname⟩ | ⟨A, B, hcache, hat, hbefore, hafter⟩⟩ :=
    h.locate hsmall name
  · have hy : y ∈ r.bufferCache := by rw [hcache]; simp
    refine ⟨some y, ?_, ?_⟩
    · simp only [Registry.ebFind, hpos, Option.bind_eq_bind, Option.bind_some, hat]
      rw [if_neg (by omega), hcache]
      simp
    · intro x
      refine ⟨fun hx => ?_, fun hx => ?_⟩
      · rw [← Option.some.inj hx]
        exact ⟨hy, hname⟩
      · rw [h.name_inj hx.1 hy (hx.2.trans hname.symm)]
  · refine ⟨none, ?_, ?_⟩
    · simp only [Registry.ebFind, hpos, Option.bind_eq_bind, Option.bind_some]
      rw [if_pos (by omega)]
      rfl
    · intro x
      refine ⟨fun hx => absurd hx (by simp), ?_⟩
      rintro ⟨hx, hxname⟩
      rw [hcache] at hx
      rcases List.mem_append.mp hx with hx | hx
      · have hlt := hbefore x hx
        rw [hxname, strcmp_self] at hlt
        exact absurd hlt (by decide)
      · have hlt := hafter x hx
        rw [hxname, strcmp_self] at hlt
        exact absurd hlt (by decide)

/-! ## Removing and inserting -/

theorem Registry.Sorted.remove (h : r.Sorted) (hsmall : r.Small) {b : BufferId} (hb : b ∈ r.bufferCache) :
    r.ebCacheRemove b = some (0, { r with bufferCache := r.bufferCache.filter (· ≠ b) }) := by
  obtain ⟨info, hinfo⟩ := Option.isSome_iff_exists.mp (h.live b hb)
  obtain ⟨pos, hpos, ⟨A, y, B, hcache, hat, hname⟩ | ⟨A, B, hcache, hat, hbefore, hafter⟩⟩ :=
    h.locate hsmall (r.nameOf b)
  · have hy : y ∈ r.bufferCache := by rw [hcache]; simp
    obtain rfl := h.name_inj hy hb hname
    have hnodup := h.nodup
    rw [hcache] at hnodup
    have hfilter : r.bufferCache.filter (· ≠ y) = A ++ B := by
      rw [hcache, List.filter_append, List.filter_cons_of_neg (by simp)]
      obtain ⟨-, hcons, hdisj⟩ := List.nodup_append.mp hnodup
      congr 1
      · exact List.filter_eq_self.mpr fun x hx => by
          simpa using hdisj x hx y List.mem_cons_self
      · exact List.filter_eq_self.mpr fun x hx => by
          have hne : x ≠ y := fun heq => (List.nodup_cons.mp hcons).1 (heq ▸ hx)
          simpa using hne
    rw [Registry.nameOf_of_heap hinfo] at hpos
    simp only [Registry.ebCacheRemove, hinfo, hpos, Option.bind_eq_bind, Option.bind_some, hat]
    rw [if_neg (by omega), if_neg (by rw [hcache]; simp), hfilter]
    simp only [Int.toNat_natCast, hcache, eraseIdx_middle]
    rfl
  · exfalso
    rw [hcache] at hb
    rcases List.mem_append.mp hb with hx | hx
    · have hlt := hbefore b hx
      rw [strcmp_self] at hlt
      exact absurd hlt (by decide)
    · have hlt := hafter b hx
      rw [strcmp_self] at hlt
      exact absurd hlt (by decide)

theorem Registry.Sorted.remove_unnamed (h : r.Sorted) (hsmall : r.Small) {b : BufferId} (hinfo : r.heap b = some info)
    (hnew : ∀ x ∈ r.bufferCache, r.nameOf x ≠ info.name) : r.ebCacheRemove b = some (-1, r) := by
  obtain ⟨pos, hpos, ⟨A, y, B, hcache, -, hname⟩ | ⟨A, B, hcache, hat, -, -⟩⟩ :=
    h.locate hsmall info.name
  · exact absurd hname (hnew y (by rw [hcache]; simp))
  · simp only [Registry.ebCacheRemove, hinfo, hpos, Option.bind_eq_bind, Option.bind_some]
    rw [if_pos (by omega)]
    rfl

theorem Registry.Sorted.insert (h : r.Sorted) (hsmall : r.Small) {b : BufferId} (hinfo : r.heap b = some info)
    (hnew : ∀ x ∈ r.bufferCache, r.nameOf x ≠ info.name) :
    ∃ cache, r.ebCacheInsert b = some (0, { r with bufferCache := cache }) ∧
      { r with bufferCache := cache }.Sorted ∧ (∀ x, x ∈ cache ↔ x = b ∨ x ∈ r.bufferCache) ∧
      cache.length = r.bufferCache.length + 1 := by
  obtain ⟨pos, hpos, ⟨A, y, B, hcache, -, hname⟩ | ⟨A, B, hcache, hat, hbefore, hafter⟩⟩ :=
    h.locate hsmall info.name
  · exact absurd hname (hnew y (by rw [hcache]; simp))
  · have hb : r.nameOf b = info.name := Registry.nameOf_of_heap hinfo
    have hindex : (-pos - 1).toNat = A.length := by omega
    have hinsert : r.bufferCache.insertIdx A.length b = A ++ b :: B := by
      rw [hcache, insertIdx_middle]
    refine ⟨A ++ b :: B, ?_, ⟨?_, ?_⟩, ?_, ?_⟩
    · simp only [Registry.ebCacheInsert, hinfo, hpos, Option.bind_eq_bind, Option.bind_some]
      rw [if_neg (by omega), hindex, hinsert]
      rfl
    · intro x hx
      rcases List.mem_append.mp hx with hx | hx
      · exact h.live x (by rw [hcache]; exact List.mem_append_left _ hx)
      · rcases List.mem_cons.mp hx with rfl | hx
        · rw [hinfo]; rfl
        · exact h.live x (by rw [hcache]; exact List.mem_append_right _ hx)
    · have horder := h.order
      rw [hcache, List.map_append, List.pairwise_append] at horder
      obtain ⟨hA, hB, hAB⟩ := horder
      show ((A ++ b :: B).map r.nameOf).Pairwise _
      rw [List.map_append, List.map_cons, List.pairwise_append, List.pairwise_cons, hb]
      refine ⟨hA, ⟨?_, hB⟩, ?_⟩
      · intro t ht
        obtain ⟨x, hx, rfl⟩ := List.mem_map.mp ht
        exact hafter x hx
      · intro s hs t ht
        obtain ⟨x, hx, rfl⟩ := List.mem_map.mp hs
        rcases List.mem_cons.mp ht with rfl | ht
        · exact hbefore x hx
        · exact hAB _ hs t ht
    · intro x
      rw [hcache]
      simp only [List.mem_append, List.mem_cons]
      tauto
    · rw [hcache]
      simp only [List.length_append, List.length_cons]
      omega

theorem Registry.Sorted.congr {r' : Registry} (h : r.Sorted) (hcache : r'.bufferCache = r.bufferCache)
    (hheap : ∀ x ∈ r.bufferCache, ∀ info, r.heap x = some info →
      ∃ info', r'.heap x = some info' ∧ info'.name = info.name) : r'.Sorted := by
  have hnames : r'.bufferCache.map r'.nameOf = r.bufferCache.map r.nameOf := by
    rw [hcache]
    refine List.map_congr_left fun x hx => ?_
    obtain ⟨info, hinfo⟩ := Option.isSome_iff_exists.mp (h.live x hx)
    obtain ⟨info', hinfo', hname⟩ := hheap x hx info hinfo
    rw [Registry.nameOf_of_heap hinfo', Registry.nameOf_of_heap hinfo, hname]
  refine ⟨?_, by rw [hnames]; exact h.order⟩
  intro x hx
  rw [hcache] at hx
  obtain ⟨info, hinfo⟩ := Option.isSome_iff_exists.mp (h.live x hx)
  obtain ⟨info', hinfo', -⟩ := hheap x hx info hinfo
  rw [hinfo']
  rfl

theorem Registry.Sorted.filter (h : r.Sorted) (p : BufferId → Bool) :
    { r with bufferCache := r.bufferCache.filter p }.Sorted := by
  refine ⟨?_, ?_⟩
  · intro x hx
    exact h.live x (List.mem_filter.mp hx).1
  · exact h.order.sublist (List.filter_sublist.map _)

end Qemacs
