import Qemacs.Registry.Naming

/-!
# The invariant of the registry

The cache is sorted and holds the buffers of the list, which are the buffers that are alive; each
of them has a name. A buffer that another one owns owns nothing and logs nothing, so that freeing
goes one level deep, and no pointer is left to a buffer that is gone.

Renaming a buffer keeps this, and so does making one, by itself or for another buffer to own.
Freeing has a module to itself.
-/

namespace Qemacs

open Lib

/-- A buffer that can be owned. -/
def BufferInfo.Leaf (info : BufferInfo) : Prop :=
  info.saveLog = false ∧ info.logBuffer = none ∧ info.bStyles = none

/-- There is a pointer to `l`. -/
def BufferInfo.Owns (info : BufferInfo) (l : BufferId) : Prop :=
  info.logBuffer = some l ∨ info.bStyles = some l

/-- The registry between two calls. -/
structure Registry.Inv (r : Registry) : Prop where
  sorted : r.Sorted
  cached : ∀ x, x ∈ r.bufferCache ↔ x ∈ r.firstBuffer
  alive : ∀ x, (r.heap x).isSome ↔ x ∈ r.firstBuffer
  nodup : r.firstBuffer.Nodup
  named : ∀ x info, r.heap x = some info → info.name ≠ []
  leaf : ∀ x info l, r.heap x = some info → info.Owns l → ∃ sub, r.heap l = some sub ∧ sub.Leaf
  fresh : ∀ x, (r.heap x).isSome → x < r.next

theorem BufferInfo.Leaf.not_owns {info : BufferInfo} (h : info.Leaf) (l : BufferId) : ¬ info.Owns l := by
  rintro (hl | hl)
  · rw [h.2.1] at hl
    exact absurd hl (by simp)
  · rw [h.2.2] at hl
    exact absurd hl (by simp)

theorem Registry.Inv.empty : ({} : Registry).Inv := by
  refine ⟨⟨?_, List.Pairwise.nil⟩, fun x => Iff.rfl, fun x => ?_, List.nodup_nil, ?_, ?_, ?_⟩
  · intro x hx
    exact absurd hx List.not_mem_nil
  · exact ⟨fun h => absurd h (by simp), fun h => absurd h List.not_mem_nil⟩
  · intro x info h
    exact absurd h (by simp)
  · intro x info l h
    exact absurd h (by simp)
  · intro x h
    exact absurd h (by simp)

variable {r : Registry}

theorem Registry.Inv.heap_next (h : r.Inv) : r.heap r.next = none := by
  cases hn : r.heap r.next with
  | none => rfl
  | some info => exact absurd (h.fresh r.next (by rw [hn]; rfl)) (Nat.lt_irrefl _)

theorem Registry.Inv.nameOf_ne_nil (h : r.Inv) {x : BufferId} (hx : x ∈ r.bufferCache) : r.nameOf x ≠ [] := by
  obtain ⟨info, hinfo⟩ := Option.isSome_iff_exists.mp (h.sorted.live x hx)
  rw [Registry.nameOf_of_heap hinfo]
  exact h.named x info hinfo

/-- The same number of buffers in the list and in the cache, so the cache is short when the list
is. -/
theorem Registry.Inv.perm (h : r.Inv) : r.bufferCache.Perm r.firstBuffer :=
  (List.perm_ext_iff_of_nodup h.sorted.nodup h.nodup).mpr h.cached

/-! ## Renaming -/

/-- **A renamed buffer is the same buffer under another name.** -/
theorem Registry.Inv.setBufferName (h : r.Inv) (hsmall : r.Small) {b : BufferId} (hb : b ∈ r.firstBuffer)
    {name1 : List UInt8} (hfree : NameFree (r.namesBut b) name1) :
    ∃ r', r.ebSetBufferName b name1 = some (0, r') ∧ r'.Inv ∧ r'.bufferCache.length = r.bufferCache.length := by
  obtain ⟨n, hn⟩ := hfree.chosen
  obtain ⟨info, hinfo⟩ := Option.isSome_iff_exists.mp ((h.alive b).mpr hb)
  have hcached := (h.cached b).mpr hb
  obtain ⟨r', hset, ⟨info', hinfo', hheap⟩, hlist, hnext, hsorted, hmem, -⟩ :=
    h.sorted.setBufferName hsmall (fun x hx => h.nameOf_ne_nil hx) hinfo (.inl hcached) hn
  obtain rfl := Option.some.inj (hinfo.symm.trans hinfo')
  have hsame : ∀ x, x ∈ r'.bufferCache ↔ x ∈ r.bufferCache := by
    intro x
    rw [hmem]
    exact ⟨fun hx => hx.elim (fun heq => heq ▸ hcached) id, .inr⟩
  -- nothing but the name of `b` is new
  have hcase : ∀ x info', r'.heap x = some info' →
      ∃ old, r.heap x = some old ∧ info'.saveLog = old.saveLog ∧ info'.logBuffer = old.logBuffer ∧
        info'.bStyles = old.bStyles ∧ info'.name ≠ [] := by
    intro x info' hx
    simp only [hheap] at hx
    by_cases hxb : x = b
    · rw [if_pos hxb] at hx
      rw [← Option.some.inj hx, hxb]
      exact ⟨info, hinfo, rfl, rfl, rfl, hn.named⟩
    · rw [if_neg hxb] at hx
      exact ⟨info', hx, rfl, rfl, rfl, h.named x info' hx⟩
  have hsome : ∀ x, (r'.heap x).isSome = (r.heap x).isSome := by
    intro x
    simp only [hheap]
    by_cases hxb : x = b
    · rw [if_pos hxb, hxb, hinfo]
      rfl
    · rw [if_neg hxb]
  refine ⟨r', hset, ⟨hsorted, ?_, ?_, ?_, ?_, ?_, ?_⟩, ?_⟩
  · intro x
    rw [hsame, hlist]
    exact h.cached x
  · intro x
    rw [hsome, hlist]
    exact h.alive x
  · rw [hlist]
    exact h.nodup
  · intro x info' hx
    obtain ⟨old, -, -, -, -, hname⟩ := hcase x info' hx
    exact hname
  · intro x info' l hx howns
    obtain ⟨old, hold, -, hlog, hstyles, -⟩ := hcase x info' hx
    have howns' : old.Owns l := by
      unfold BufferInfo.Owns
      rw [← hlog, ← hstyles]
      exact howns
    obtain ⟨sub, hsub, hleaf⟩ := h.leaf x old l hold howns'
    obtain ⟨sub', hsub'⟩ := Option.isSome_iff_exists.mp (show (r'.heap l).isSome by rw [hsome, hsub]; rfl)
    obtain ⟨old', hold', hsave, hlog', hstyles', -⟩ := hcase l sub' hsub'
    obtain rfl := Option.some.inj (hsub.symm.trans hold')
    exact ⟨sub', hsub', hsave.trans hleaf.1, hlog'.trans hleaf.2.1, hstyles'.trans hleaf.2.2⟩
  · intro x hx
    rw [hsome] at hx
    rw [hnext]
    exact h.fresh x hx
  · exact ((List.perm_ext_iff_of_nodup hsorted.nodup h.sorted.nodup).mpr hsame).length_eq

/-! ## Making a buffer -/

/-- A buffer has been made in the step from `r` to `r'`. -/
structure Registry.Makes (r r' : Registry) (info : BufferInfo) : Prop where
  heap : r'.heap = fun x => if x = r.next then some info else r.heap x
  next : r'.next = r.next + 1
  listed : r'.firstBuffer.Perm (r.next :: r.firstBuffer)
  sorted : r'.Sorted
  cached : r'.bufferCache.Perm (r.next :: r.bufferCache)

/-- **A new buffer has the first name that can be had.** -/
theorem Registry.Inv.newBuffer (h : r.Inv) (hsmall : r.Small) {name : List UInt8} (saveLog : Bool) {n : Nat}
    (hn : Chosen r.names name n) :
    ∃ r', r.newBuffer name saveLog = some (some r.next, r') ∧
      r.Makes r' { name := bufferName name n, saveLog := saveLog } := by
  obtain ⟨r₀, hr₀⟩ : ∃ r₀ : Registry, r₀ = { r with
      next := r.next + 1, heap := fun x => if x = r.next then some {} else r.heap x } := ⟨_, rfl⟩
  have hnot : r.next ∉ r.bufferCache := by
    intro hmem
    have hlive := h.sorted.live _ hmem
    rw [h.heap_next] at hlive
    exact absurd hlive (by simp)
  have hcache₀ : r₀.bufferCache = r.bufferCache := by rw [hr₀]
  have hheap₀ : ∀ x ∈ r.bufferCache, r₀.heap x = r.heap x := by
    intro x hx
    have hne : x ≠ r.next := fun heq => hnot (heq ▸ hx)
    rw [hr₀]
    exact if_neg hne
  have hnew : r₀.heap r.next = some {} := by
    rw [hr₀]
    exact if_pos rfl
  have hsorted₀ : r₀.Sorted := h.sorted.congr hcache₀ fun x hx info hinfo =>
    ⟨info, (hheap₀ x hx).trans hinfo, rfl⟩
  have hnames : r₀.namesBut r.next = r.names := by
    rw [Registry.namesBut, hcache₀, List.filter_eq_self.mpr]
    · exact List.map_congr_left fun x hx => Registry.nameOf_congr (hheap₀ x hx)
    · intro x hx
      have hne : x ≠ r.next := fun heq => hnot (heq ▸ hx)
      simpa using hne
  obtain ⟨r₁, hset, ⟨info, hinfo, hheap⟩, hlist, hnext, hsorted, hmem, -⟩ :=
    hsorted₀.setBufferName (by unfold Registry.Small; rw [hcache₀]; exact hsmall)
      (by
        intro x hx
        rw [hcache₀] at hx
        rw [Registry.nameOf_congr (hheap₀ x hx)]
        exact h.nameOf_ne_nil hx)
      hnew (.inr rfl) (by rw [hnames]; exact hn)
  obtain rfl := Option.some.inj (hnew.symm.trans hinfo)
  obtain ⟨r₂, hr₂⟩ : ∃ r₂, r₂ = r₁.update r.next fun info => { info with saveLog := saveLog } :=
    ⟨_, rfl⟩
  have hheap₂ : ∀ x, r₂.heap x = if x = r.next then
      some { name := bufferName name n, saveLog := saveLog } else r.heap x := by
    intro x
    rw [hr₂, Registry.heap_update]
    by_cases hx : x = r.next
    · rw [if_pos hx, if_pos hx, congrFun hheap r.next, if_pos rfl]
      rfl
    · rw [if_neg hx, if_neg hx, congrFun hheap x, if_neg hx, hr₀]
      exact if_neg hx
  have hcache₂ : r₂.bufferCache = r₁.bufferCache := by rw [hr₂]; rfl
  have hlist₂ : r₂.firstBuffer = r.firstBuffer := by rw [hr₂]; exact hlist.trans (by rw [hr₀])
  have hsorted₂ : r₂.Sorted := by
    refine hsorted.congr hcache₂ fun x _ i hi => ?_
    rw [hr₂, Registry.heap_update]
    by_cases hx : x = r.next
    · rw [if_pos hx, ← hx, hi]
      exact ⟨_, rfl, rfl⟩
    · rw [if_neg hx]
      exact ⟨i, hi, rfl⟩
  obtain ⟨list, hlistdef⟩ : ∃ list, list = if (bufferName name n).head? = some (ascii '*')
      then r₂.firstBuffer ++ [r.next] else r.next :: r₂.firstBuffer := ⟨_, rfl⟩
  refine ⟨{ r₂ with firstBuffer := list }, ?_, funext hheap₂, ?_, ?_, hsorted₂.congr rfl
    fun x _ i hi => ⟨i, hi, rfl⟩, ?_⟩
  · unfold Registry.newBuffer
    simp only [← hr₀, hset, Option.bind_eq_bind, Option.bind_some, ← hr₂]
    rw [if_neg (by decide), hheap₂, if_pos rfl, hlistdef]
    rfl
  · show r₂.next = _
    rw [hr₂]
    exact hnext.trans (by rw [hr₀])
  · show list.Perm _
    rw [hlistdef, hlist₂]
    by_cases hsystem : (bufferName name n).head? = some (ascii '*')
    · rw [if_pos hsystem]
      exact List.perm_append_singleton _ _
    · rw [if_neg hsystem]
  · show r₂.bufferCache.Perm _
    rw [hcache₂]
    refine (List.perm_ext_iff_of_nodup hsorted.nodup
      (List.nodup_cons.mpr ⟨hnot, h.sorted.nodup⟩)).mpr fun x => ?_
    rw [hmem, hcache₀, List.mem_cons]

theorem Registry.Inv.makes {r' : Registry} (h : r.Inv) {info : BufferInfo} (hm : r.Makes r' info)
    (hname : info.name ≠ []) (howns : ∀ l, ¬ info.Owns l) : r'.Inv := by
  have hheap : ∀ x, r'.heap x = if x = r.next then some info else r.heap x := by
    intro x
    rw [hm.heap]
  have hlist : ∀ x, x ∈ r'.firstBuffer ↔ x = r.next ∨ x ∈ r.firstBuffer := by
    intro x
    rw [hm.listed.mem_iff, List.mem_cons]
  have hnot : r.next ∉ r.firstBuffer := by
    rw [← h.alive, h.heap_next]
    simp
  refine ⟨hm.sorted, ?_, ?_, ?_, ?_, ?_, ?_⟩
  · intro x
    rw [hm.cached.mem_iff, hlist, List.mem_cons, h.cached]
  · intro x
    rw [hlist, hheap, ← h.alive]
    by_cases hx : x = r.next
    · rw [if_pos hx]
      exact ⟨fun _ => .inl hx, fun _ => rfl⟩
    · rw [if_neg hx]
      exact ⟨.inr, fun hor => hor.resolve_left hx⟩
  · exact hm.listed.nodup_iff.mpr (List.nodup_cons.mpr ⟨hnot, h.nodup⟩)
  · intro x i hi
    rw [hheap] at hi
    by_cases hx : x = r.next
    · rw [if_pos hx] at hi
      rw [← Option.some.inj hi]
      exact hname
    · rw [if_neg hx] at hi
      exact h.named x i hi
  · intro x i l hi hl
    rw [hheap] at hi
    by_cases hx : x = r.next
    · rw [if_pos hx] at hi
      rw [← Option.some.inj hi] at hl
      exact absurd hl (howns l)
    · rw [if_neg hx] at hi
      obtain ⟨sub, hsub, hleaf⟩ := h.leaf x i l hi hl
      refine ⟨sub, ?_, hleaf⟩
      rw [hheap, if_neg]
      · exact hsub
      · intro heq
        rw [heq, h.heap_next] at hsub
        exact absurd hsub (by simp)
  · intro x hx
    rw [hheap] at hx
    rw [hm.next]
    by_cases hxn : x = r.next
    · rw [hxn]
      exact Nat.lt_succ_self _
    · rw [if_neg hxn] at hx
      exact Nat.lt_succ_of_lt (h.fresh x hx)

/-! ## Owning a buffer -/

theorem Registry.Inv.own {r : Registry} (h : r.Inv) {b l : BufferId} {info sub : BufferInfo}
    (hb : r.heap b = some info) (hroot : ∀ x i, r.heap x = some i → ¬ i.Owns b)
    (hsub : r.heap l = some sub) (hleaf : sub.Leaf) (hne : l ≠ b) {f : BufferInfo → BufferInfo}
    (hname : (f info).name = info.name) (hf : ∀ k, (f info).Owns k → k = l ∨ info.Owns k) :
    (r.update b f).Inv := by
  have hheap : ∀ x, (r.update b f).heap x = if x = b then some (f info) else r.heap x := by
    intro x
    rw [Registry.heap_update, hb]
    rfl
  have hsome : ∀ x, ((r.update b f).heap x).isSome = (r.heap x).isSome := by
    intro x
    rw [hheap]
    by_cases hx : x = b
    · rw [if_pos hx, hx, hb]
      rfl
    · rw [if_neg hx]
  refine ⟨?_, h.cached, ?_, h.nodup, ?_, ?_, ?_⟩
  · refine h.sorted.congr rfl fun x _ i hi => ?_
    rw [hheap]
    by_cases hx : x = b
    · rw [hx] at hi
      obtain rfl := Option.some.inj (hb.symm.trans hi)
      exact ⟨_, if_pos hx, hname⟩
    · exact ⟨i, (if_neg hx).trans hi, rfl⟩
  · intro x
    rw [hsome]
    exact h.alive x
  · intro x i hi
    rw [hheap] at hi
    by_cases hx : x = b
    · rw [if_pos hx] at hi
      rw [← Option.some.inj hi, hname]
      exact h.named b info hb
    · rw [if_neg hx] at hi
      exact h.named x i hi
  · -- what was a leaf is another buffer, and still one
    have hkeep : ∀ k sub, r.heap k = some sub → sub.Leaf → k ≠ b →
        ∃ sub, (r.update b f).heap k = some sub ∧ sub.Leaf := by
      intro k sub hk hsub hkb
      exact ⟨sub, by rw [hheap, if_neg hkb]; exact hk, hsub⟩
    have hold : ∀ x i k, r.heap x = some i → i.Owns k → ∃ sub, (r.update b f).heap k = some sub ∧ sub.Leaf := by
      intro x i k hi hk
      obtain ⟨sub, hsub, hleaf⟩ := h.leaf x i k hi hk
      exact hkeep k sub hsub hleaf fun heq => hroot x i hi (heq ▸ hk)
    intro x i k hi hk
    rw [hheap] at hi
    by_cases hx : x = b
    · rw [if_pos hx] at hi
      rw [← Option.some.inj hi] at hk
      rcases hf k hk with rfl | hk
      · exact hkeep k sub hsub hleaf hne
      · exact hold b info k hb hk
    · rw [if_neg hx] at hi
      exact hold x i k hi hk
  · intro x hx
    rw [hsome] at hx
    exact h.fresh x hx

/-- **A buffer that is made for another one**: its log or its styles. -/
theorem Registry.Inv.subBuffer {r : Registry} (h : r.Inv) (hsmall : r.Small) {b : BufferId}
    {info : BufferInfo} (hb : r.heap b = some info)
    (hroot : ∀ x i, r.heap x = some i → ¬ i.Owns b) {name : List UInt8}
    (hfree : NameFree r.names name) {f : Option BufferId → BufferInfo → BufferInfo}
    (hname : ∀ o, (f o info).name = info.name)
    (hf : ∀ o k, (f o info).Owns k → o = some k ∨ info.Owns k) :
    ∃ r', r.newBuffer name false = some (some r.next, r') ∧
      (r'.update b (f (some r.next))).Inv ∧
      r'.bufferCache.length = r.bufferCache.length + 1 := by
  obtain ⟨n, hn⟩ := hfree.chosen
  obtain ⟨r', hnew, hmakes⟩ := h.newBuffer hsmall false hn
  have hleaf : ({ name := bufferName name n } : BufferInfo).Leaf := ⟨rfl, rfl, rfl⟩
  have hne : r.next ≠ b := by
    intro heq
    rw [← heq, h.heap_next] at hb
    exact absurd hb (by simp)
  have hheap : ∀ x, r'.heap x = if x = r.next then some { name := bufferName name n } else r.heap x := by
    intro x
    rw [hmakes.heap]
  refine ⟨r', hnew, ?_, ?_⟩
  · refine (h.makes hmakes hn.named hleaf.not_owns).own (l := r.next)
      (by rw [hheap, if_neg hne.symm]; exact hb) ?_ (by rw [hheap, if_pos rfl]) hleaf hne (hname _) ?_
    · intro x i hi
      rw [hheap] at hi
      by_cases hx : x = r.next
      · rw [if_pos hx] at hi
        rw [← Option.some.inj hi]
        exact hleaf.not_owns b
      · rw [if_neg hx] at hi
        exact hroot x i hi
    · intro k hk
      exact (hf _ k hk).imp (fun heq => (Option.some.inj heq).symm) id
  · exact hmakes.cached.length_eq

end Qemacs
