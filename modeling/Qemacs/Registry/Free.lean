import Qemacs.Registry.Invariant

/-!
# Freeing a buffer

`eb_free` takes a buffer out of the cache, frees its log, takes it out of the list, frees its
styles and returns its memory. In between the invariant does not hold: the buffer is out of the
cache and still in the list, and then out of both and still alive. The frees inside need less than
the invariant, a sorted cache and a list of living buffers (`Registry.Sound`), and what they do to
the registry is one function, `Registry.drop`. The registry after all of it is looked at once, as a
whole: what was not freed is as before, without its pointers to what was.
-/

namespace Qemacs

open Lib

/-- What a free needs to have a meaning. -/
structure Registry.Sound (r : Registry) : Prop where
  sorted : r.Sorted
  small : r.Small
  alive : ∀ x ∈ r.firstBuffer, (r.heap x).isSome

/-- `l` is gone, and so are the pointers to it. -/
def Registry.drop (r : Registry) (l : BufferId) : Registry :=
  { r with
    heap := fun x => if x = l then none
      else if x ∈ r.firstBuffer then (r.heap x).map (BufferInfo.forget l) else r.heap x
    firstBuffer := r.firstBuffer.filter (· ≠ l)
    bufferCache := r.bufferCache.filter (· ≠ l) }

/-! ## Pointers -/

variable {info : BufferInfo} {b l : BufferId}

theorem BufferInfo.owns_forget : (info.forget b).Owns l ↔ info.Owns l ∧ l ≠ b := by
  have hptr : ∀ p : Option BufferId, (if p = some b then none else p) = some l ↔ p = some l ∧ l ≠ b := by
    intro p
    by_cases hp : p = some b
    · rw [if_pos hp, hp]
      simp [eq_comm]
    · rw [if_neg hp]
      exact ⟨fun h => ⟨h, fun heq => hp (heq ▸ h)⟩, And.left⟩
  unfold BufferInfo.Owns BufferInfo.forget
  simp only [hptr]
  tauto

/-- As `forget`, of a pointer that may be `NULL`. -/
def BufferInfo.forgetOpt (info : BufferInfo) : Option BufferId → BufferInfo
  | none => info
  | some l => info.forget l

variable {o : Option BufferId}

theorem BufferInfo.owns_forgetOpt : (info.forgetOpt o).Owns l ↔ info.Owns l ∧ o ≠ some l := by
  cases o with
  | none => simp [BufferInfo.forgetOpt]
  | some b => simp [BufferInfo.forgetOpt, BufferInfo.owns_forget, eq_comm]

theorem BufferInfo.bStyles_forgetOpt :
    (info.forgetOpt o).bStyles = some l ↔ info.bStyles = some l ∧ o ≠ some l := by
  cases o with
  | none => simp [BufferInfo.forgetOpt]
  | some b =>
    show (if info.bStyles = some b then none else info.bStyles) = some l ↔ _
    by_cases hb : info.bStyles = some b
    · rw [if_pos hb, hb]
      simp
    · rw [if_neg hb]
      exact ⟨fun h => ⟨h, fun heq => hb (h.trans heq.symm)⟩, And.left⟩

@[simp] theorem BufferInfo.name_forgetOpt (info : BufferInfo) (o : Option BufferId) :
    (info.forgetOpt o).name = info.name := by cases o <;> rfl

@[simp] theorem BufferInfo.saveLog_forgetOpt (info : BufferInfo) (o : Option BufferId) :
    (info.forgetOpt o).saveLog = info.saveLog := by cases o <;> rfl

theorem BufferInfo.leaf_iff : info.Leaf ↔ info.saveLog = false ∧ ∀ l, ¬ info.Owns l := by
  refine ⟨fun h => ⟨h.1, h.not_owns⟩, fun h => ⟨h.1, ?_, ?_⟩⟩
  · cases hl : info.logBuffer with
    | none => rfl
    | some l => exact absurd (.inl hl) (h.2 l)
  · cases hl : info.bStyles with
    | none => rfl
    | some l => exact absurd (.inr hl) (h.2 l)

/-! ## Freeing what owns nothing -/

/-- As `drop`, of a pointer that may be `NULL`. -/
def Registry.dropOpt (r : Registry) : Option BufferId → Registry
  | none => r
  | some l => r.drop l

theorem Registry.heap_dropOpt (r : Registry) (o : Option BufferId) (x : BufferId) :
    (r.dropOpt o).heap x = if o = some x then none
      else if x ∈ r.firstBuffer then (r.heap x).map (BufferInfo.forgetOpt · o) else r.heap x := by
  cases o with
  | none =>
    rw [if_neg (by simp)]
    by_cases hx : x ∈ r.firstBuffer
    · rw [if_pos hx]
      exact (congrFun Option.map_id (r.heap x)).symm
    · rw [if_neg hx]
      rfl
  | some l =>
    by_cases hx : x = l
    · rw [if_pos (congrArg some hx.symm)]
      exact if_pos hx
    · rw [if_neg fun heq => hx (Option.some.inj heq).symm]
      exact if_neg hx

variable {r : Registry} {x : BufferId}

theorem Registry.mem_firstBuffer_dropOpt : x ∈ (r.dropOpt o).firstBuffer ↔ x ∈ r.firstBuffer ∧ o ≠ some x := by
  cases o with
  | none => simp [Registry.dropOpt]
  | some l => simp [Registry.dropOpt, Registry.drop, @eq_comm _ l x]

theorem Registry.mem_bufferCache_dropOpt : x ∈ (r.dropOpt o).bufferCache ↔ x ∈ r.bufferCache ∧ o ≠ some x := by
  cases o with
  | none => simp [Registry.dropOpt]
  | some l => simp [Registry.dropOpt, Registry.drop, @eq_comm _ l x]

/-- Fewer buffers and fewer pointers, and the same names. -/
structure Registry.Shrinks (r r' : Registry) : Prop where
  next : r'.next = r.next
  list : r'.firstBuffer.Sublist r.firstBuffer
  cache : r'.bufferCache.Sublist r.bufferCache
  alive : ∀ x, x ∈ r'.firstBuffer ∨ x ∈ r'.bufferCache → (r.heap x).isSome → (r'.heap x).isSome
  kept : ∀ x info', r'.heap x = some info' → ∃ info, r.heap x = some info ∧
    info'.name = info.name ∧ info'.saveLog = info.saveLog ∧ ∀ l, info'.Owns l → info.Owns l

variable {r' : Registry}

theorem Registry.Shrinks.trans {r'' : Registry} (h : r.Shrinks r') (h' : r'.Shrinks r'') : r.Shrinks r'' := by
  refine ⟨h'.next.trans h.next, h'.list.trans h.list, h'.cache.trans h.cache, ?_, ?_⟩
  · intro x hx hsome
    exact h'.alive x hx (h.alive x (hx.imp (h'.list.subset ·) (h'.cache.subset ·)) hsome)
  · intro x info'' hx
    obtain ⟨info', hx', hname', hsave', howns'⟩ := h'.kept x info'' hx
    obtain ⟨info, hx, hname, hsave, howns⟩ := h.kept x info' hx'
    exact ⟨info, hx, hname'.trans hname, hsave'.trans hsave, fun l hl => howns l (howns' l hl)⟩

theorem Registry.Shrinks.dead (h : r.Shrinks r') (hx : r.heap x = none) : r'.heap x = none := by
  cases hx' : r'.heap x with
  | none => rfl
  | some info' =>
    obtain ⟨info, hinfo, -⟩ := h.kept x info' hx'
    rw [hx] at hinfo
    exact absurd hinfo (by simp)

theorem Registry.Sorted.shrinks (h : r.Sorted) (hs : r.Shrinks r') : r'.Sorted := by
  -- first the cache alone, then the heap
  have hpart : { r with bufferCache := r'.bufferCache }.Sorted :=
    ⟨fun x hx => h.live x (hs.cache.subset hx), h.order.sublist (hs.cache.map _)⟩
  refine hpart.congr rfl ?_
  intro x hx info hinfo
  obtain ⟨info', hinfo'⟩ := Option.isSome_iff_exists.mp
    (hs.alive x (.inr hx) (show (r.heap x).isSome by rw [hinfo]; rfl))
  obtain ⟨old, hold, hname, -⟩ := hs.kept x info' hinfo'
  obtain rfl := Option.some.inj (hinfo.symm.trans hold)
  exact ⟨info', hinfo', hname⟩

theorem Registry.Sound.shrinks (h : r.Sound) (hs : r.Shrinks r') : r'.Sound := by
  refine ⟨h.sorted.shrinks hs, Nat.le_trans hs.cache.length_le h.small, ?_⟩
  intro x hx
  exact hs.alive x (.inl hx) (h.alive x (hs.list.subset hx))

theorem Registry.shrinks_dropOpt (r : Registry) (o : Option BufferId) : r.Shrinks (r.dropOpt o) := by
  refine ⟨?_, ?_, ?_, ?_, ?_⟩
  · cases o <;> rfl
  · cases o with
    | none => exact List.Sublist.refl _
    | some l => exact List.filter_sublist
  · cases o with
    | none => exact List.Sublist.refl _
    | some l => exact List.filter_sublist
  · intro x hx hsome
    have hne : o ≠ some x := hx.elim (fun h => (Registry.mem_firstBuffer_dropOpt.mp h).2)
      (fun h => (Registry.mem_bufferCache_dropOpt.mp h).2)
    rw [Registry.heap_dropOpt, if_neg hne]
    by_cases hlist : x ∈ r.firstBuffer
    · rw [if_pos hlist, Option.isSome_map]
      exact hsome
    · rw [if_neg hlist]
      exact hsome
  · intro x info' hx
    rw [Registry.heap_dropOpt] at hx
    by_cases hne : o = some x
    · rw [if_pos hne] at hx
      exact absurd hx (by simp)
    · rw [if_neg hne] at hx
      by_cases hlist : x ∈ r.firstBuffer
      · rw [if_pos hlist] at hx
        obtain ⟨info, hinfo, rfl⟩ := Option.map_eq_some_iff.mp hx
        exact ⟨info, hinfo, info.name_forgetOpt o, info.saveLog_forgetOpt o, fun l hl =>
          (BufferInfo.owns_forgetOpt.mp hl).1⟩
      · rw [if_neg hlist] at hx
        exact ⟨info', hx, rfl, rfl, fun l hl => hl⟩

theorem Registry.not_owns_dropOpt (hx : x ∈ r.firstBuffer) (hinfo : (r.dropOpt o).heap x = some info)
    (hl : info.Owns l) : o ≠ some l := by
  rw [Registry.heap_dropOpt, if_pos hx] at hinfo
  by_cases hne : o = some x
  · rw [if_pos hne] at hinfo
    exact absurd hinfo (by simp)
  · rw [if_neg hne] at hinfo
    obtain ⟨old, -, rfl⟩ := Option.map_eq_some_iff.mp hinfo
    exact (BufferInfo.owns_forgetOpt.mp hl).2

theorem Registry.ebFreeRec_eq {r₁ r₂ r₄ r₅ : Registry} {info₄ : BufferInfo} {depth : Nat} {e : Int}
    (hremove : r.ebCacheRemove b = some (e, r₁)) (hinfo : r₁.heap b = some info) (hlog : (match info.logBuffer with
      | none => some r₁
      | some log => r₁.ebFreeRec depth log) = some r₂)
    (hunlink : (r₂.update b fun info => { info with logBuffer := none }).unlink b = some r₄)
    (hinfo₄ : r₄.heap b = some info₄) (hstyles : (match info₄.bStyles with
      | none => some r₄
      | some styles => r₄.ebFreeRec depth styles) = some r₅) :
    r.ebFreeRec (depth + 1) b = some { r₅ with heap := fun x => if x = b then none else r₅.heap x } := by
  -- what follows the free of the log is the same with a log and without
  have hend : (match info₄.bStyles with
      | none => pure { r₄ with heap := fun x => if x = b then none else r₄.heap x }
      | some styles => (r₄.ebFreeRec depth styles).bind fun r =>
          pure { r with heap := fun x => if x = b then none else r.heap x })
      = some { r₅ with heap := fun x => if x = b then none else r₅.heap x } := by
    cases hs : info₄.bStyles with
    | none =>
      rw [hs] at hstyles
      obtain rfl := Option.some.inj hstyles
      rfl
    | some styles =>
      rw [hs] at hstyles
      simp only [hstyles]
      rfl
  rw [Registry.ebFreeRec, hremove]
  simp only [Option.bind_eq_bind, Option.bind_some, hinfo]
  cases hl : info.logBuffer with
  | none =>
    rw [hl] at hlog
    obtain rfl := Option.some.inj hlog
    simp only [hunlink, Option.bind_some, hinfo₄]
    exact hend
  | some log =>
    rw [hl] at hlog
    simp only [hlog, Option.bind_some, hunlink, hinfo₄]
    exact hend

theorem Registry.unlink_eq {r : Registry} (h : ∀ x ∈ r.firstBuffer, (r.heap x).isSome)
    (b : BufferId) : r.unlink b = some { r with
      heap := fun x => if x ∈ r.firstBuffer then (r.heap x).map (BufferInfo.forget b)
        else r.heap x
      firstBuffer := r.firstBuffer.filter (· ≠ b) } := by
  rw [Registry.unlink, if_pos h]

/-- **Freeing a buffer that owns nothing.** -/
theorem Registry.Sound.free_leaf (h : r.Sound) (hl : l ∈ r.bufferCache) (hinfo : r.heap l = some info)
    (hleaf : info.Leaf) (depth : Nat) :
    r.ebFreeRec (depth + 1) l = some (r.drop l) := by
  obtain ⟨-, hlog, hstyles⟩ := hleaf
  obtain ⟨r₁, hr₁⟩ : ∃ r₁ : Registry, r₁ = { r with bufferCache := r.bufferCache.filter (· ≠ l) } :=
    ⟨_, rfl⟩
  -- there is no pointer to reset
  have hupdate : (r₁.update l fun info => { info with logBuffer := none }) = r₁ := by
    have hheap : (r₁.update l fun info => { info with logBuffer := none }).heap = r₁.heap := by
      funext x
      rw [Registry.heap_update, hr₁]
      by_cases hx : x = l
      · rw [if_pos hx, hx, hinfo, Option.map_some, ← hlog]
      · rw [if_neg hx]
    exact congrArg (fun heap => { r₁ with heap := heap }) hheap
  have hunlink := Registry.unlink_eq (r := r₁) (by rw [hr₁]; exact h.alive) l
  obtain ⟨r₄, hr₄⟩ : ∃ r₄, some r₄ = r₁.unlink l := ⟨_, hunlink.symm⟩
  rw [← hr₄] at hunlink
  have hinfo₄ : ∃ info₄, r₄.heap l = some info₄ ∧ info₄.bStyles = none := by
    rw [Option.some.inj hunlink, hr₁]
    by_cases hlist : l ∈ r.firstBuffer
    · refine ⟨info.forget l, ?_, by simp [BufferInfo.forget, hstyles]⟩
      exact (if_pos hlist).trans (by rw [hinfo]; rfl)
    · exact ⟨info, (if_neg hlist).trans hinfo, hstyles⟩
  obtain ⟨info₄, hinfo₄, hstyles₄⟩ := hinfo₄
  have hremove : r.ebCacheRemove l = some (0, r₁) := by
    rw [hr₁]
    exact h.sorted.remove h.small hl
  have hinfo₁ : r₁.heap l = some info := by rw [hr₁]; exact hinfo
  have hlog₁ : (match info.logBuffer with
      | none => some r₁
      | some log => r₁.ebFreeRec depth log) = some r₁ := by rw [hlog]
  have hunlink₁ : (r₁.update l fun info => { info with logBuffer := none }).unlink l = some r₄ := by
    rw [hupdate]
    exact hr₄.symm
  have hend : (match info₄.bStyles with
      | none => some r₄
      | some styles => r₄.ebFreeRec depth styles) = some r₄ := by rw [hstyles₄]
  rw [Registry.ebFreeRec_eq hremove hinfo₁ hlog₁ hunlink₁ hinfo₄ hend, Option.some.inj hunlink, hr₁]
  rfl

theorem Registry.Sound.free_owned (h : r.Sound) (o : Option BufferId) (depth : Nat) :
    (∀ l, o = some l → l ∈ r.bufferCache ∧ ∃ sub, r.heap l = some sub ∧ sub.Leaf) →
    (match o with
      | none => some r
      | some l => r.ebFreeRec (depth + 1) l) = some (r.dropOpt o) := by
  intro ho
  cases o with
  | none => rfl
  | some l =>
    obtain ⟨hl, sub, hsub, hleaf⟩ := ho l rfl
    exact h.free_leaf hl hsub hleaf depth

theorem Registry.shrinks_uncache (r : Registry) (b : BufferId) :
    r.Shrinks { r with bufferCache := r.bufferCache.filter (· ≠ b) } :=
  ⟨rfl, List.Sublist.refl _, List.filter_sublist, fun _ _ hsome => hsome,
    fun _ info hinfo => ⟨info, hinfo, rfl, rfl, fun _ hl => hl⟩⟩

theorem Registry.shrinks_update : r.Shrinks (r.update b fun info => { info with logBuffer := none }) := by
  refine ⟨rfl, List.Sublist.refl _, List.Sublist.refl _, ?_, ?_⟩
  · intro x _ hsome
    rw [Registry.heap_update]
    by_cases hx : x = b
    · rw [if_pos hx, Option.isSome_map, ← hx]
      exact hsome
    · rw [if_neg hx]
      exact hsome
  · intro x info' hinfo'
    rw [Registry.heap_update] at hinfo'
    by_cases hx : x = b
    · rw [if_pos hx, ← hx] at hinfo'
      obtain ⟨info, hinfo, rfl⟩ := Option.map_eq_some_iff.mp hinfo'
      refine ⟨info, hinfo, rfl, rfl, ?_⟩
      rintro l (hl | hl)
      · exact absurd hl (by simp)
      · exact .inr hl
    · rw [if_neg hx] at hinfo'
      exact ⟨info', hinfo', rfl, rfl, fun l hl => hl⟩

theorem Registry.shrinks_unlink (h : r.unlink b = some r') :
    r.Shrinks r' ∧ r'.bufferCache = r.bufferCache ∧
      (∀ x, x ∈ r'.firstBuffer ↔ x ∈ r.firstBuffer ∧ x ≠ b) ∧
      ∀ x, x ∈ r.firstBuffer → r'.heap x = (r.heap x).map (BufferInfo.forgetOpt · (some b)) := by
  unfold Registry.unlink at h
  by_cases halive : ∀ x ∈ r.firstBuffer, (r.heap x).isSome
  · rw [if_pos halive] at h
    obtain rfl := Option.some.inj h
    refine ⟨⟨rfl, List.filter_sublist, List.Sublist.refl _, ?_, ?_⟩, rfl, ?_, ?_⟩
    · intro x _ hsome
      show (if x ∈ r.firstBuffer then _ else _ : Option BufferInfo).isSome
      by_cases hx : x ∈ r.firstBuffer
      · rw [if_pos hx, Option.isSome_map]
        exact hsome
      · rw [if_neg hx]
        exact hsome
    · intro x info' hinfo'
      by_cases hx : x ∈ r.firstBuffer
      · obtain ⟨info, hinfo, rfl⟩ := Option.map_eq_some_iff.mp ((if_pos hx).symm.trans hinfo')
        exact ⟨info, hinfo, rfl, rfl, fun l hl => (BufferInfo.owns_forget.mp hl).1⟩
      · exact ⟨info', (if_neg hx).symm.trans hinfo', rfl, rfl, fun l hl => hl⟩
    · intro x
      simp
    · intro x hx
      exact if_pos hx
  · rw [if_neg halive] at h
    exact absurd h (by simp)

/-! ## The registry after a free -/

/-- The buffers that are `gone` were freed in the steps from `r` to `r'`. -/
structure Registry.Frees (r r' : Registry) (gone : BufferId → Prop) : Prop where
  shrinks : r.Shrinks r'
  list : ∀ x, x ∈ r'.firstBuffer ↔ x ∈ r.firstBuffer ∧ ¬ gone x
  cache : ∀ x, x ∈ r'.bufferCache ↔ x ∈ r.bufferCache ∧ ¬ gone x
  dead : ∀ x, gone x → r'.heap x = none
  owns : ∀ x info l, r'.heap x = some info → info.Owns l → ¬ gone l

/-- **The invariant holds again after a free.** -/
theorem Registry.Inv.frees (h : r.Inv) {gone : BufferId → Prop} (hf : r.Frees r' gone) : r'.Inv := by
  have halive : ∀ x, (r'.heap x).isSome ↔ x ∈ r'.firstBuffer := by
    intro x
    rw [hf.list]
    refine ⟨fun hsome => ?_, fun hx => ?_⟩
    · obtain ⟨info', hinfo'⟩ := Option.isSome_iff_exists.mp hsome
      obtain ⟨info, hinfo, -⟩ := hf.shrinks.kept x info' hinfo'
      refine ⟨(h.alive x).mp (by rw [hinfo]; rfl), fun hgone => ?_⟩
      rw [hf.dead x hgone] at hinfo'
      exact absurd hinfo' (by simp)
    · exact hf.shrinks.alive x (.inl ((hf.list x).mpr hx)) ((h.alive x).mpr hx.1)
  refine ⟨h.sorted.shrinks hf.shrinks, ?_, halive, h.nodup.sublist hf.shrinks.list, ?_, ?_, ?_⟩
  · intro x
    rw [hf.cache, hf.list, h.cached]
  · intro x info' hinfo'
    obtain ⟨info, hinfo, hname, -⟩ := hf.shrinks.kept x info' hinfo'
    rw [hname]
    exact h.named x info hinfo
  · intro x info' l hinfo' hl
    obtain ⟨info, hinfo, -, -, howns⟩ := hf.shrinks.kept x info' hinfo'
    obtain ⟨sub, hsub, hleaf⟩ := h.leaf x info l hinfo (howns l hl)
    have hlist : l ∈ r'.firstBuffer := (hf.list l).mpr
      ⟨(h.alive l).mp (by rw [hsub]; rfl), hf.owns x info' l hinfo' hl⟩
    obtain ⟨sub', hsub'⟩ := Option.isSome_iff_exists.mp ((halive l).mpr hlist)
    obtain ⟨old, hold, -, hsave, howns'⟩ := hf.shrinks.kept l sub' hsub'
    obtain rfl := Option.some.inj (hsub.symm.trans hold)
    exact ⟨sub', hsub', BufferInfo.leaf_iff.mpr
      ⟨hsave.trans hleaf.1, fun k hk => hleaf.not_owns k (howns' k hk)⟩⟩
  · intro x hsome
    obtain ⟨info', hinfo'⟩ := Option.isSome_iff_exists.mp hsome
    obtain ⟨info, hinfo, -⟩ := hf.shrinks.kept x info' hinfo'
    rw [hf.shrinks.next]
    exact h.fresh x (by rw [hinfo]; rfl)

/-- `b` is being freed: its log is gone and it is out of the cache and of the list. -/
structure Registry.Unlinks (r r' : Registry) (b : BufferId) (info : BufferInfo) : Prop where
  sound : r'.Sound
  shrinks : r.Shrinks r'
  list : ∀ x, x ∈ r'.firstBuffer ↔ x ∈ r.firstBuffer ∧ x ≠ b ∧ info.logBuffer ≠ some x
  cache : ∀ x, x ∈ r'.bufferCache ↔ x ∈ r.bufferCache ∧ x ≠ b ∧ info.logBuffer ≠ some x
  dead : ∀ x, info.logBuffer = some x → r'.heap x = none
  owns : ∀ x i l, r'.heap x = some i → i.Owns l → l ≠ b ∧ info.logBuffer ≠ some l
  styles : ∃ info', r'.heap b = some info' ∧
    ∀ l, info'.bStyles = some l ↔ info.bStyles = some l ∧ info.logBuffer ≠ some l

theorem Registry.Inv.not_owns_self (h : r.Inv) (hinfo : r.heap b = some info) : ¬ info.Owns b := by
  intro hb
  obtain ⟨sub, hsub, hleaf⟩ := h.leaf b info b hinfo hb
  obtain rfl := Option.some.inj (hinfo.symm.trans hsub)
  exact hleaf.not_owns b hb

theorem Registry.Inv.free_unlinks (h : r.Inv) (hsmall : r.Small) (hinfo : r.heap b = some info) (depth : Nat) :
    ∃ r₁ r₂ r₄, r.ebCacheRemove b = some (0, r₁) ∧ r₁.heap b = some info ∧
      (match info.logBuffer with
        | none => some r₁
        | some log => r₁.ebFreeRec (depth + 1) log) = some r₂ ∧
      (r₂.update b fun info => { info with logBuffer := none }).unlink b = some r₄ ∧
      r.Unlinks r₄ b info := by
  have hlist : b ∈ r.firstBuffer := (h.alive b).mp (by rw [hinfo]; rfl)
  have hlogb : info.logBuffer ≠ some b := fun heq => h.not_owns_self hinfo (.inl heq)
  -- out of the cache
  have hsound : r.Sound := ⟨h.sorted, hsmall, fun x hx => (h.alive x).mpr hx⟩
  obtain ⟨r₁, hr₁⟩ : ∃ r₁ : Registry, r₁ = { r with bufferCache := r.bufferCache.filter (· ≠ b) } :=
    ⟨_, rfl⟩
  have hs₁ : r.Shrinks r₁ := by rw [hr₁]; exact r.shrinks_uncache b
  have hsound₁ := hsound.shrinks hs₁
  have hheap₁ : r₁.heap = r.heap := by rw [hr₁]
  have hlist₁ : r₁.firstBuffer = r.firstBuffer := by rw [hr₁]
  have hcache₁ : ∀ x, x ∈ r₁.bufferCache ↔ x ∈ r.bufferCache ∧ x ≠ b := by
    intro x
    rw [hr₁]
    simp
  -- the log
  obtain ⟨r₂, hr₂⟩ : ∃ r₂, r₂ = r₁.dropOpt info.logBuffer := ⟨_, rfl⟩
  have hs₂ : r₁.Shrinks r₂ := by rw [hr₂]; exact r₁.shrinks_dropOpt _
  have hlog := hsound₁.free_owned info.logBuffer depth (by
    intro l hl
    obtain ⟨sub, hsub, hleaf⟩ := h.leaf b info l hinfo (.inl hl)
    have hmem : l ∈ r.bufferCache := (h.cached l).mpr ((h.alive l).mp (by rw [hsub]; rfl))
    exact ⟨(hcache₁ l).mpr ⟨hmem, fun heq => hlogb (heq ▸ hl)⟩, sub, by rw [hheap₁]; exact hsub, hleaf⟩)
  have hheap₂ : r₂.heap b = some (info.forgetOpt info.logBuffer) := by
    rw [hr₂, Registry.heap_dropOpt, if_neg hlogb, hlist₁, if_pos hlist, hheap₁, hinfo]
    rfl
  -- out of the list
  obtain ⟨r₃, hr₃⟩ : ∃ r₃, r₃ = r₂.update b fun info => { info with logBuffer := none } := ⟨_, rfl⟩
  have hs₃ : r₂.Shrinks r₃ := by rw [hr₃]; exact Registry.shrinks_update
  have hsound₃ := (hsound₁.shrinks hs₂).shrinks hs₃
  have hlist₃ : ∀ x, x ∈ r₃.firstBuffer ↔ x ∈ r.firstBuffer ∧ info.logBuffer ≠ some x := by
    intro x
    rw [hr₃, ← hlist₁, ← Registry.mem_firstBuffer_dropOpt, ← hr₂]
    rfl
  obtain ⟨r₄, hunlink⟩ : ∃ r₄, r₃.unlink b = some r₄ := ⟨_, Registry.unlink_eq hsound₃.alive b⟩
  obtain ⟨hs₄, hcache₄, hlist₄, hheap₄⟩ := Registry.shrinks_unlink hunlink
  refine ⟨r₁, r₂, r₄, by rw [hr₁]; exact h.sorted.remove hsmall ((h.cached b).mpr hlist),
    by rw [hheap₁]; exact hinfo, by rw [hr₂]; exact hlog, by rw [← hr₃]; exact hunlink,
    hsound₃.shrinks hs₄, ((hs₁.trans hs₂).trans hs₃).trans hs₄, ?_, ?_, ?_, ?_, ?_⟩
  · intro x
    rw [hlist₄, hlist₃]
    tauto
  · intro x
    rw [hcache₄, hr₃]
    show x ∈ r₂.bufferCache ↔ _
    rw [hr₂, Registry.mem_bufferCache_dropOpt, hcache₁, and_assoc]
  · intro x hx
    refine (hs₃.trans hs₄).dead ?_
    rw [hr₂, Registry.heap_dropOpt, if_pos hx]
  · intro x i l hi hl
    -- the buffer is one of the list, where the pointers to the log and to `b` have been reset
    obtain ⟨i₃, hi₃, -, -, howns₃⟩ := hs₄.kept x i hi
    obtain ⟨i₂, hi₂, -, -, howns₂⟩ := hs₃.kept x i₃ hi₃
    obtain ⟨i₁, hi₁, -⟩ := hs₂.kept x i₂ hi₂
    have hx : x ∈ r.firstBuffer := (h.alive x).mp (by rw [← hheap₁, hi₁]; rfl)
    have hne : info.logBuffer ≠ some x := by
      intro heq
      rw [hr₂, Registry.heap_dropOpt, if_pos heq] at hi₂
      exact absurd hi₂ (by simp)
    refine ⟨?_, ?_⟩
    · rw [hheap₄ x ((hlist₃ x).mpr ⟨hx, hne⟩)] at hi
      obtain ⟨old, -, rfl⟩ := Option.map_eq_some_iff.mp hi
      exact fun heq => (BufferInfo.owns_forgetOpt.mp hl).2 (congrArg some heq.symm)
    · rw [hr₂] at hi₂
      exact Registry.not_owns_dropOpt (by rw [hlist₁]; exact hx) hi₂ (howns₂ l (howns₃ l hl))
  · rw [hheap₄ b ((hlist₃ b).mpr ⟨hlist, hlogb⟩), hr₃, Registry.heap_update, if_pos rfl, hheap₂]
    refine ⟨_, rfl, fun l => ?_⟩
    rw [BufferInfo.bStyles_forgetOpt]
    show (info.forgetOpt info.logBuffer).bStyles = some l ∧ _ ↔ _
    rw [BufferInfo.bStyles_forgetOpt]
    refine ⟨And.left, fun hl => ⟨hl, fun heq => h.not_owns_self hinfo ?_⟩⟩
    rw [Option.some.inj heq]
    exact .inr hl.1

/-- **Freeing a buffer frees it and what it owns.** -/
theorem Registry.Inv.free (h : r.Inv) (hsmall : r.Small) (hinfo : r.heap b = some info) :
    ∃ r', r.ebFree b = some r' ∧ r.Frees r' fun x => x = b ∨ info.Owns x := by
  obtain ⟨depth, hdepth⟩ : ∃ depth, r.next = depth + 1 := by
    have hlt : b < r.next := h.fresh b (by rw [hinfo]; rfl)
    exact ⟨r.next - 1, (Nat.succ_pred_eq_of_pos (Nat.zero_lt_of_lt hlt)).symm⟩
  obtain ⟨r₁, r₂, r₄, hremove, hinfo₁, hlog, hunlink, hu⟩ := h.free_unlinks hsmall hinfo depth
  obtain ⟨info₄, hinfo₄, hstyles₄⟩ := hu.styles
  obtain ⟨r₅, hr₅⟩ : ∃ r₅, r₅ = r₄.dropOpt info₄.bStyles := ⟨_, rfl⟩
  have hs₅ : r₄.Shrinks r₅ := by rw [hr₅]; exact r₄.shrinks_dropOpt _
  have hstyles := hu.sound.free_owned info₄.bStyles depth (by
    intro l hl
    obtain ⟨hstyles, hlog⟩ := (hstyles₄ l).mp hl
    obtain ⟨sub, hsub, hleaf⟩ := h.leaf b info l hinfo (.inr hstyles)
    have hcache : l ∈ r.bufferCache := (h.cached l).mpr ((h.alive l).mp (by rw [hsub]; rfl))
    have hne : l ≠ b := fun heq => h.not_owns_self hinfo (heq ▸ .inr hstyles)
    have hmem : l ∈ r₄.bufferCache := (hu.cache l).mpr ⟨hcache, hne, hlog⟩
    obtain ⟨sub', hsub'⟩ := Option.isSome_iff_exists.mp (hu.sound.sorted.live l hmem)
    obtain ⟨old, hold, -, hsave, howns⟩ := hu.shrinks.kept l sub' hsub'
    obtain rfl := Option.some.inj (hsub.symm.trans hold)
    exact ⟨hmem, sub', hsub', BufferInfo.leaf_iff.mpr
      ⟨hsave.trans hleaf.1, fun k hk => hleaf.not_owns k (howns k hk)⟩⟩)
  obtain ⟨r₆, hr₆⟩ : ∃ r₆ : Registry,
      r₆ = { r₅ with heap := fun x => if x = b then none else r₅.heap x } := ⟨_, rfl⟩
  have hheap₆ : ∀ x, r₆.heap x = if x = b then none else r₅.heap x := by
    intro x
    rw [hr₆]
  -- the styles may have been the log, and have gone with it
  have hgone : ∀ x, (x = b ∨ info.Owns x) ↔ x = b ∨ info.logBuffer = some x ∨ info₄.bStyles = some x := by
    intro x
    rw [hstyles₄]
    unfold BufferInfo.Owns
    tauto
  have hlist₆ : ∀ x, x ∈ r₆.firstBuffer ↔ x ∈ r.firstBuffer ∧ ¬ (x = b ∨ info.Owns x) := by
    intro x
    rw [hgone, hr₆]
    show x ∈ r₅.firstBuffer ↔ _
    rw [hr₅, Registry.mem_firstBuffer_dropOpt, hu.list]
    tauto
  have hcache₆ : ∀ x, x ∈ r₆.bufferCache ↔ x ∈ r.bufferCache ∧ ¬ (x = b ∨ info.Owns x) := by
    intro x
    rw [hgone, hr₆]
    show x ∈ r₅.bufferCache ↔ _
    rw [hr₅, Registry.mem_bufferCache_dropOpt, hu.cache]
    tauto
  have hs₆ : r₅.Shrinks r₆ := by
    refine ⟨by rw [hr₆], by rw [hr₆], by rw [hr₆], ?_, ?_⟩
    · intro x hx hsome
      have hne : x ≠ b := hx.elim (fun hx heq => ((hlist₆ x).mp hx).2 (.inl heq))
        (fun hx heq => ((hcache₆ x).mp hx).2 (.inl heq))
      rw [hheap₆, if_neg hne]
      exact hsome
    · intro x i hi
      rw [hheap₆] at hi
      by_cases hx : x = b
      · rw [if_pos hx] at hi
        exact absurd hi (by simp)
      · rw [if_neg hx] at hi
        exact ⟨i, hi, rfl, rfl, fun l hl => hl⟩
  refine ⟨r₆, ?_, (hu.shrinks.trans hs₅).trans hs₆, hlist₆, hcache₆, ?_, ?_⟩
  · rw [Registry.ebFree, hdepth, Registry.ebFreeRec_eq hremove hinfo₁ hlog hunlink hinfo₄ hstyles, hr₆, hr₅]
  · intro x hx
    rw [hheap₆]
    rcases (hgone x).mp hx with hx | hx | hx
    · rw [if_pos hx]
    · rw [(hs₅.dead (hu.dead x hx)), ite_self]
    · rw [hr₅, Registry.heap_dropOpt, if_pos hx, ite_self]
  · intro x i l hi hl
    rw [hgone]
    obtain ⟨i₅, hi₅, -, -, howns₅⟩ := hs₆.kept x i hi
    obtain ⟨i₄, hi₄, -, -, howns₄⟩ := hs₅.kept x i₅ hi₅
    obtain ⟨hne, hlog⟩ := hu.owns x i₄ l hi₄ (howns₄ l (howns₅ l hl))
    have hx₄ : x ∈ r₄.firstBuffer := by
      obtain ⟨old, hold, -⟩ := hu.shrinks.kept x i₄ hi₄
      refine (hu.list x).mpr ⟨(h.alive x).mp (by rw [hold]; rfl), ?_, ?_⟩
      · intro heq
        rw [hheap₆, if_pos heq] at hi
        exact absurd hi (by simp)
      · intro heq
        rw [hu.dead x heq] at hi₄
        exact absurd hi₄ (by simp)
    rw [hr₅] at hi₅
    have hstyles := Registry.not_owns_dropOpt hx₄ hi₅ (howns₅ l hl)
    tauto

end Qemacs
