import Qemacs.Lib.Run
import Qemacs.Registry.Free

/-!
# The registry is consistent

Whatever buffers are made, renamed and freed, and in whatever order: the cache is sorted by name,
it holds the buffers of the list and no others, their names are distinct and not empty, and
`eb_find` finds each of them by its name.

Two things can end this, both a matter of numbers. When every name that `eb_set_buffer_name` can
make of a name is taken, its count goes on past the largest `int`; and in a cache of more than
2^30 buffers the sum of two indices is no `int`.
-/

namespace Qemacs

open Lib

/-- What the rest of the editor relies on. -/
structure Registry.Consistent (r : Registry) : Prop where
  sorted : (r.bufferCache.map r.nameOf).Pairwise fun s t => strcmp s t = .lt
  cached : r.bufferCache.Perm r.firstBuffer
  alive : ∀ x, (r.heap x).isSome ↔ x ∈ r.firstBuffer
  named : ∀ x ∈ r.firstBuffer, r.nameOf x ≠ []
  distinct : (r.firstBuffer.map r.nameOf).Nodup
  find : ∀ name, ∃ found, r.ebFind name = some found ∧
    ∀ x, found = some x ↔ x ∈ r.firstBuffer ∧ r.nameOf x = name

/-- The cache stays within 2^30 buffers, every name that is asked for can be had, and pointers are
to buffers of the list. -/
def RegistryCall.Ok (r : Registry) : RegistryCall → Prop
  | .new name _ styles =>
      r.bufferCache.length + (if styles then 2 else 1) ≤ 2 ^ 30 ∧ NameFree r.names name ∧
        (styles → ∀ n, Chosen r.names name n →
          NameFree (bufferName name n :: r.names) (subName 'S' (bufferName name n)))
  | .setBufferName b name1 => b ∈ r.firstBuffer ∧ NameFree (r.namesBut b) name1
  | .openLog b => b ∈ r.firstBuffer ∧ ∀ info, r.heap b = some info →
      info.saveLog = true → info.logBuffer = none →
        r.bufferCache.length + 1 ≤ 2 ^ 30 ∧ NameFree r.names (subName 'L' info.name)
  | .free b => b ∈ r.firstBuffer

variable {r : Registry}

theorem Registry.Inv.consistent (h : r.Inv) (hsmall : r.Small) : r.Consistent := by
  refine ⟨h.sorted.order, h.perm, h.alive, ?_, ?_, ?_⟩
  · intro x hx
    exact h.nameOf_ne_nil ((h.cached x).mpr hx)
  · exact (h.perm.map r.nameOf).nodup_iff.mp h.sorted.nodup_names
  · intro name
    obtain ⟨found, hfind, hfound⟩ := h.sorted.find hsmall name
    refine ⟨found, hfind, fun x => ?_⟩
    rw [hfound, h.cached]

/-! ## The calls -/

theorem NameFree.congr {taken taken' : List (List UInt8)} {name1 : List UInt8}
    (h : NameFree taken name1) (hmem : ∀ name, name ∈ taken' ↔ name ∈ taken) :
    NameFree taken' name1 := by
  obtain ⟨n, hint, hnamed, hfree⟩ := h
  exact ⟨n, hint, hnamed, by rw [hmem]; exact hfree⟩

theorem Registry.Makes.mem_names {r' : Registry} {info : BufferInfo} (hm : r.Makes r' info) (h : r.Inv)
    (name : List UInt8) : name ∈ r'.names ↔ name ∈ info.name :: r.names := by
  have hnew : r'.nameOf r.next = info.name := Registry.nameOf_of_heap ((congrFun hm.heap _).trans (if_pos rfl))
  have hold : ∀ x ∈ r.bufferCache, r'.nameOf x = r.nameOf x := by
    intro x hx
    have hne : x ≠ r.next := by
      intro heq
      have hlive := h.sorted.live x hx
      rw [heq, h.heap_next] at hlive
      exact absurd hlive (by simp)
    exact Registry.nameOf_congr ((congrFun hm.heap x).trans (if_neg hne))
  rw [Registry.names, (hm.cached.map r'.nameOf).mem_iff, List.map_cons, hnew, List.mem_cons,
    List.mem_cons, Registry.names, List.map_congr_left hold]

theorem Registry.Inv.ebNew (h : r.Inv) (hsmall : r.Small) {name : List UInt8} {saveLog styles : Bool}
    (hok : (RegistryCall.new name saveLog styles).Ok r) :
    ∃ r', r.ebNew name saveLog styles = some (some r.next, r') ∧ r'.Inv ∧ r'.Small := by
  obtain ⟨hlen, hfree, hstyles⟩ := hok
  obtain ⟨n, hn⟩ := hfree.chosen
  obtain ⟨r₁, hnew, hmakes⟩ := h.newBuffer hsmall saveLog hn
  have hinv₁ : r₁.Inv := h.makes hmakes hn.named (by rintro l (hl | hl) <;> exact absurd hl (by simp))
  have hlen₁ : r₁.bufferCache.length = r.bufferCache.length + 1 := hmakes.cached.length_eq
  cases styles with
  | false =>
    refine ⟨r₁, ?_, hinv₁, ?_⟩
    · unfold Registry.ebNew
      rw [hnew]
      rfl
    · unfold Registry.Small
      rw [hlen₁]
      exact hlen
  | true =>
    have hheap : ∀ x, r₁.heap x = if x = r.next then
        some { name := bufferName name n, saveLog := saveLog } else r.heap x := by
      intro x
      rw [hmakes.heap]
    simp only [if_true] at hlen
    have hfree₁ : NameFree r₁.names (subName 'S' (bufferName name n)) :=
      (hstyles rfl n hn).congr (hmakes.mem_names h)
    obtain ⟨r₂, hsub, hinv₂, hlen₂⟩ := hinv₁.subBuffer (b := r.next)
      (f := fun o info => { info with bStyles := o })
      (by unfold Registry.Small; omega)
      (by rw [hheap, if_pos rfl])
      (by
        -- nobody can have owned a buffer that was not there
        intro x i hi howns
        rw [hheap] at hi
        by_cases hx : x = r.next
        · rw [if_pos hx] at hi
          rw [← Option.some.inj hi] at howns
          rcases howns with hl | hl <;> exact absurd hl (by simp)
        · rw [if_neg hx] at hi
          obtain ⟨sub, hsub, -⟩ := h.leaf x i r.next hi howns
          rw [h.heap_next] at hsub
          exact absurd hsub (by simp))
      hfree₁ (fun o => rfl)
      (by
        rintro o k (hk | hk)
        · exact .inr (.inl hk)
        · exact .inl hk)
    refine ⟨_, ?_, hinv₂, ?_⟩
    · unfold Registry.ebNew Registry.ebCreateStyleBuffer
      rw [hnew]
      simp only [Option.bind_eq_bind, Option.bind_some, hheap, if_true, Option.isSome_none,
        Bool.false_eq_true, if_false, hsub]
      rfl
    · unfold Registry.Small
      show r₂.bufferCache.length ≤ _
      omega

theorem Registry.Inv.openLog (h : r.Inv) (hsmall : r.Small) {b : BufferId} (hok : (RegistryCall.openLog b).Ok r)
    : ∃ r', r.openLog b = some r' ∧ r'.Inv ∧ r'.Small := by
  obtain ⟨hb, hlog⟩ := hok
  obtain ⟨info, hinfo⟩ := Option.isSome_iff_exists.mp ((h.alive b).mpr hb)
  unfold Registry.openLog
  simp only [hinfo, Option.bind_eq_bind, Option.bind_some]
  by_cases hsave : info.saveLog = false
  · rw [if_pos hsave]
    exact ⟨r, rfl, h, hsmall⟩
  · rw [if_neg hsave]
    by_cases hsome : info.logBuffer.isSome
    · rw [if_pos hsome]
      exact ⟨r, rfl, h, hsmall⟩
    · rw [if_neg hsome]
      obtain ⟨hlen, hfree⟩ := hlog info hinfo (by simpa using hsave) (by simpa using hsome)
      obtain ⟨r₂, hsub, hinv₂, hlen₂⟩ := h.subBuffer hsmall hinfo
        (f := fun o info => { info with logBuffer := o })
        (by
          -- what is owned has no log
          intro x i hi howns
          obtain ⟨sub, hsub, hleaf⟩ := h.leaf x i b hi howns
          obtain rfl := Option.some.inj (hinfo.symm.trans hsub)
          exact hsave hleaf.1)
        hfree (fun o => rfl)
        (by
          rintro o k (hk | hk)
          · exact .inl hk
          · exact .inr (.inr hk))
      refine ⟨_, ?_, hinv₂, ?_⟩
      · rw [hsub]
        rfl
      · unfold Registry.Small
        show r₂.bufferCache.length ≤ _
        omega

/-- **One call.** -/
theorem Registry.Inv.call (h : r.Inv ∧ r.Small) (c : RegistryCall) (hok : c.Ok r) :
    ∃ r', r.call c = some r' ∧ r'.Inv ∧ r'.Small := by
  obtain ⟨h, hsmall⟩ := h
  cases c with
  | new name saveLog styles =>
    obtain ⟨r', hnew, hinv⟩ := h.ebNew hsmall hok
    exact ⟨r', by rw [Registry.call, hnew]; rfl, hinv⟩
  | setBufferName b name1 =>
    obtain ⟨r', hset, hinv, hlen⟩ := h.setBufferName hsmall hok.1 hok.2
    exact ⟨r', by rw [Registry.call, hset]; rfl, hinv, by unfold Registry.Small; rw [hlen]; exact hsmall⟩
  | openLog b => exact h.openLog hsmall hok
  | free b =>
    obtain ⟨info, hinfo⟩ := Option.isSome_iff_exists.mp ((h.alive b).mpr hok)
    obtain ⟨r', hfree, hfrees⟩ := h.free hsmall hinfo
    exact ⟨r', hfree, h.frees hfrees, Nat.le_trans hfrees.shrinks.cache.length_le hsmall⟩

/-- **The registry is consistent after every run.** -/
theorem registry_consistent (calls : List RegistryCall)
    (h : RunMeets (fun r c => c.Ok r) Registry.call {} calls) :
    ∃ r, run Registry.call {} calls = some r ∧ r.Consistent := by
  obtain ⟨r, hrun, hinv, hsmall⟩ := run_invariant
    (fun r c hI hok => Registry.Inv.call hI c hok) calls {} ⟨Registry.Inv.empty, Nat.zero_le _⟩ h
  exact ⟨r, hrun, hinv.consistent hsmall⟩

/-- The pointer is to a buffer of the list. -/
def RegistryCall.Listed (r : Registry) : RegistryCall → Prop
  | .new _ _ _ => True
  | .setBufferName b _ => b ∈ r.firstBuffer
  | .openLog b => b ∈ r.firstBuffer
  | .free b => b ∈ r.firstBuffer

instance RegistryCall.decidableListed (r : Registry) (c : RegistryCall) : Decidable (c.Listed r) :=
  match c with
  | .new _ _ _ => isTrue True.intro
  | .setBufferName b _ => inferInstanceAs (Decidable (b ∈ r.firstBuffer))
  | .openLog b => inferInstanceAs (Decidable (b ∈ r.firstBuffer))
  | .free b => inferInstanceAs (Decidable (b ∈ r.firstBuffer))

/-- With fewer than 999,999,997 buffers there is nothing to ask for. -/
theorem RegistryCall.ok_of_few {c : RegistryCall} (hfew : r.bufferCache.length + 3 < 10 ^ 9) (hlisted : c.Listed r)
    : c.Ok r := by
  have hnames : r.names.length = r.bufferCache.length := List.length_map _
  cases c with
  | new name saveLog styles =>
    refine ⟨?_, nameFree_of_few (by omega) name, fun _ n _ => nameFree_of_few ?_ _⟩
    · split <;> omega
    · rw [List.length_cons]
      omega
  | setBufferName b name1 =>
    refine ⟨hlisted, nameFree_of_few ?_ name1⟩
    have hle := List.length_filter_le (fun x => decide (x ≠ b)) r.bufferCache
    rw [Registry.namesBut, List.length_map]
    omega
  | openLog b => exact ⟨hlisted, fun info _ _ _ => ⟨by omega, nameFree_of_few (by omega) _⟩⟩
  | free b => exact hlisted

theorem registry_consistent_owners : ∃ r, run Registry.call {}
    [.new (asciiString "a") true true, .new (asciiString "a") false false, .openLog 0,
      .setBufferName 2 (asciiString "*b*"), .setBufferName 0 (asciiString "*b*"), .free 0,
      .new [] false true] = some r ∧ r.Consistent :=
  registry_consistent _ (RunMeets.imp (fun _ _ h => RegistryCall.ok_of_few h.1 h.2)
    (show RunMeets (fun r c => r.bufferCache.length + 3 < 10 ^ 9 ∧ c.Listed r) Registry.call {} _ by
      decide +kernel))

/-! ## Too many buffers -/

/-- Buffers with the names `1`, `2`, and so on. -/
def numberedBuffers (k : Nat) : List RegistryCall :=
  (List.range k).map fun i => .new (decimal (i + 1)) false false

theorem decimal_succ_ne_nil (i : Nat) : decimal (i + 1) ≠ [] := by
  rw [decimal, Ne, List.map_eq_nil_iff, List.reverse_eq_nil_iff]
  exact Nat.digits_ne_nil_iff_ne_zero.mpr (Nat.succ_ne_zero i)

theorem chosen_zero {taken : List (List UInt8)} {name : List UInt8} (hlen : name.length ≤ 245)
    (hnamed : name ≠ []) (hfree : name ∉ taken) : Chosen taken name 0 := by
  have hname : bufferName name 0 = name := List.take_of_length_le hlen
  exact ⟨Nat.zero_le _, by rw [hname]; exact hnamed, by rw [hname]; exact hfree,
    fun k hk => absurd hk (Nat.not_lt_zero k)⟩

theorem run_numberedBuffers {k : Nat} (hk : k ≤ 2 ^ 30 + 1) :
    ∃ r, run Registry.call {} (numberedBuffers k) = some r ∧ r.Inv ∧
      r.bufferCache.length = k ∧ ∀ name, name ∈ r.names ↔ ∃ i, i < k ∧ name = decimal (i + 1) := by
  induction k with
  | zero =>
    refine ⟨{}, rfl, Registry.Inv.empty, rfl, fun name => ?_⟩
    exact ⟨fun h => absurd h List.not_mem_nil, fun ⟨i, hi, _⟩ => absurd hi (Nat.not_lt_zero i)⟩
  | succ k ih =>
    obtain ⟨r, hrun, hinv, hlen, hnames⟩ := ih (by omega)
    have hnumber : (decimal (k + 1)).length ≤ 245 := by
      rw [decimal, List.length_map, List.length_reverse]
      exact Nat.le_trans ((Nat.digits_length_le_iff (k := 10) (by decide) (k + 1)).mpr (by omega)) (by decide)
    have hchosen : Chosen r.names (decimal (k + 1)) 0 := by
      refine chosen_zero hnumber (decimal_succ_ne_nil k) ?_
      rw [hnames]
      rintro ⟨i, hi, heq⟩
      have := decimal_inj heq
      omega
    obtain ⟨r', hnew, hmakes⟩ := hinv.newBuffer (by unfold Registry.Small; omega) false hchosen
    have hname : bufferName (decimal (k + 1)) 0 = decimal (k + 1) := List.take_of_length_le hnumber
    refine ⟨r', ?_, ?_, ?_, ?_⟩
    · rw [numberedBuffers, List.range_succ, List.map_append, run_append, ← numberedBuffers, hrun]
      simp only [Option.bind_some, List.map_cons, List.map_nil, run, Registry.call, Registry.ebNew,
        hnew, Option.bind_eq_bind]
      rfl
    · exact hinv.makes hmakes hchosen.named (by rintro l (hl | hl) <;> exact absurd hl (by simp))
    · rw [hmakes.cached.length_eq, List.length_cons, hlen]
    · intro name
      rw [hmakes.mem_names hinv, List.mem_cons, hnames]
      show name = bufferName (decimal (k + 1)) 0 ∨ _ ↔ _
      rw [hname]
      refine ⟨?_, ?_⟩
      · rintro (heq | ⟨i, hi, heq⟩)
        · exact ⟨k, by omega, heq⟩
        · exact ⟨i, by omega, heq⟩
      · rintro ⟨i, hi, heq⟩
        rcases Nat.eq_or_lt_of_le (Nat.lt_succ_iff.mp hi) with rfl | hi
        · exact .inl heq
        · exact .inr ⟨i, hi, heq⟩

theorem strcmp_colon_decimal (i : Nat) : strcmp (asciiString ":") (decimal (i + 1)) = .gt := by
  obtain ⟨c, cs, hcons⟩ := List.exists_cons_of_ne_nil (decimal_succ_ne_nil i)
  have hdigit := qeIsdigit_decimal (n := i + 1) (c := c) (by rw [hcons]; exact List.mem_cons_self)
  have hbyte : ∀ n, n < 256 → qeIsdigit (UInt8.ofNat n) = true →
      compare (ascii ':') (UInt8.ofNat n) = .gt := by decide +kernel
  have hgt := hbyte c.toNat c.toNat_lt (by rw [UInt8.ofNat_toNat]; exact hdigit)
  rw [UInt8.ofNat_toNat] at hgt
  rw [hcons]
  show compare (ascii ':' :: []) (c :: cs) = .gt
  rw [List.compare_cons_cons, hgt]
  rfl

/-- **After 2^30 + 1 buffers, looking for a name behind all of theirs adds two indices to more than
the largest `int`.** -/
theorem registry_overflows :
    ∃ r, run Registry.call {} (numberedBuffers (2 ^ 30 + 1)) = some r ∧
      r.ebFind (asciiString ":") = none ∧ ¬ r.Consistent := by
  obtain ⟨r, hrun, hinv, hlen, hnames⟩ := run_numberedBuffers (Nat.le_refl (2 ^ 30 + 1))
  have hfind : r.ebFind (asciiString ":") = none := by
    have hright : ∀ k, k < r.bufferCache.length → r.compareAt (asciiString ":") k = some .gt := by
      intro k hk
      rw [hinv.sorted.compareAt_eq]
      have hk' : k < (r.bufferCache.map r.nameOf).length := by rw [List.length_map]; exact hk
      show ((r.bufferCache.map r.nameOf)[k]?).map _ = _
      rw [List.getElem?_eq_getElem hk', Option.map_some]
      obtain ⟨i, -, heq⟩ := (hnames _).mp (List.getElem_mem hk')
      rw [heq]
      exact congrArg some (strcmp_colon_decimal i)
    have hlocate : r.ebCacheLocate (asciiString ":") = none := by
      have hbisect : bisect intMax.toNat (r.compareAt (asciiString ":")) r.bufferCache.length 0
          r.bufferCache.length = none := by
        rw [bisect_right hright, hlen]
        decide +kernel
      unfold Registry.ebCacheLocate
      simp only [hbisect]
      rfl
    unfold Registry.ebFind
    rw [hlocate]
    rfl
  refine ⟨r, hrun, hfind, fun hc => ?_⟩
  obtain ⟨found, hsome, -⟩ := hc.find (asciiString ":")
  rw [hfind] at hsome
  exact absurd hsome (by simp)

end Qemacs
