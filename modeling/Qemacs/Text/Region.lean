import Qemacs.Text.Convert

/-!
# Copying a region

`eb_insert_buffer_convert` between two buffers of one charset copies the bytes, unless both have
styles: then it reads the region character by character and writes the characters again. What
arrives are the bytes of the region if they are the encoding of some characters to begin with, and
if `eb_nextc` stops where the region does (`EncodesSame`). Bytes that are not what
`eb_encode_char32` would have written arrive changed.

A destination is written as the text before the place and the text after it, and so is the source
around the region.
-/

namespace Qemacs

open Lib

/-! ## The source -/

section Source

variable {L σ : Type}

theorem EditBuffer.ebInsertBuffer_source {K : Type} [EditLog K] {Q : PageInv}
    {dest dest' : EditBuffer K} {src src' : PagedBuffer} {destOffset srcOffset size r : Int}
    (hsrc : src.Wf Q)
    (h : dest.ebInsertBuffer destOffset src srcOffset size = some (r, dest', src')) :
    src.SameText src' ∧ src'.Wf Q := by
  refine ⟨EditBuffer.ebInsertBuffer_sameText h, ?_⟩
  rcases EditBuffer.ebInsertBuffer_cases h with
    ⟨-, -, rfl⟩ | ⟨o, i, off, dest₁, pages, hlt, -, hfind, -⟩
  · exact hsrc
  · obtain ⟨i', off', src₁, hfind', -, -, hwf⟩ := src.findPage_spec hsrc hlt
    rw [hfind, Option.some.injEq, Prod.mk.injEq, Prod.mk.injEq] at hfind'
    rw [hfind'.2.2]
    exact hwf

theorem convertLoop_source {K : Type} [EditLog K] {Q : PageInv} {offsetMax : Int}
    {place : EditBuffer K → Int → Int} : ∀ (fuel : Nat) {src src' : EditBuffer L} {offset : Int}
    {b b' : EditBuffer K} {size r : Int}, src.buf.Wf Q →
    convertLoop offsetMax place fuel src offset b size = some (r, b', src') → src.Moved Q src' := by
  intro fuel
  induction fuel with
  | zero =>
    intro src src' offset b b' size r hsrc h
    rw [convertLoop] at h
    split at h
    · exact absurd h (by simp)
    · simp only [Option.some.injEq, Prod.mk.injEq] at h
      rw [← h.2.2]
      exact .refl hsrc
  | succ fuel ih =>
    intro src src' offset b b' size r hsrc h
    rw [convertLoop] at h
    split at h
    · simp only [Option.bind_eq_bind, Option.bind_eq_some_iff] at h
      obtain ⟨⟨⟨c, n⟩, src₁⟩, hstep, buf, -, ⟨m, b₁⟩, -, hloop⟩ := h
      obtain ⟨-, hmoved⟩ := (EditBuffer.Moved.refl hsrc).nextc_flat hstep
      exact hmoved.trans (ih hmoved.wf hloop)
    · simp only [Option.some.injEq, Prod.mk.injEq] at h
      rw [← h.2.2]
      exact .refl hsrc

theorem EditBuffer.ebInsertBufferConvert_source {Q : PageInv} {flags : ConvertFlags}
    {dest dest' : EditBuffer (UndoLog σ)} {src src' : EditBuffer L}
    {destOffset srcOffset size r : Int} (hsrc : src.buf.Wf Q)
    (h : dest.ebInsertBufferConvert flags destOffset src srcOffset size = some (r, dest', src')) :
    src'.contents = src.contents ∧ src'.buf.Wf Q := by
  unfold EditBuffer.ebInsertBufferConvert at h
  split at h
  · simp only [Option.bind_eq_bind, Option.bind_eq_some_iff] at h
    obtain ⟨⟨n, dest₁, pages⟩, hcall, hr⟩ := h
    simp only [Option.pure_def, Option.some.injEq, Prod.mk.injEq] at hr
    obtain ⟨hsame, hwf⟩ := EditBuffer.ebInsertBuffer_source hsrc hcall
    rw [← hr.2.2]
    exact ⟨hsame.contents, hwf⟩
  · simp only [] at h
    split at h
    · simp only [Option.bind_eq_bind, Option.bind_eq_some_iff] at h
      obtain ⟨⟨n, b, src₁⟩, hloop, ⟨m, dest₁, pages⟩, -, hr⟩ := h
      simp only [Option.pure_def, Option.some.injEq, Prod.mk.injEq] at hr
      have hmoved := convertLoop_source _ hsrc hloop
      rw [← hr.2.2]
      exact ⟨hmoved.same.contents, hmoved.wf⟩
    · have hmoved := convertLoop_source _ hsrc h
      exact ⟨hmoved.same.contents, hmoved.wf⟩

end Source

/-! ## Regions -/

/-- A region is the encoding of some characters, and what comes after it does not make a line end
of a carriage return at its end. -/
structure EncodesSame (s : CharsetDecodeState) (cs : List Nat) (region rest : List UInt8) : Prop where
  has : ∀ c ∈ cs, s.Has c
  convertible : Convertible s cs
  bytes : region = cs.flatMap s.encoded
  ends : s.eolType = .dos → cs.getLast? = some 13 → NoLineFeed s rest

/-- The condition for a region to be copied: with styles it has to be encoded. -/
def Copies (styles : Bool) (s : CharsetDecodeState) (region rest : List UInt8) : Prop :=
  styles = true → ∃ cs, EncodesSame s cs region rest

section Region

variable {L σ : Type}

theorem encoded_length_pos (s : CharsetDecodeState) (c : Nat) : 0 < (s.encoded c).length :=
  (sized (.narrow s.charset) s.eolType c).1

theorem length_le_flatMap_encoded (s : CharsetDecodeState) (cs : List Nat) :
    cs.length ≤ (cs.flatMap s.encoded).length := by
  induction cs with
  | nil => exact Nat.le_refl 0
  | cons c cs ih =>
    have hpos := encoded_length_pos s c
    rw [List.flatMap_cons, List.length_append, List.length_cons]
    omega

/-- What stands after the first of some characters lets it be read. -/
theorem EncodesSame.next {s : CharsetDecodeState} {c : Nat} {cs : List Nat} {region rest : List UInt8}
    (h : EncodesSame s (c :: cs) region rest) (hd : s.eolType = .dos) (hc : c = 13) :
    NoLineFeed s (cs.flatMap s.encoded ++ rest) := by
  refine noLineFeed_encoded (fun d hd => h.has d (List.mem_cons_of_mem c hd)) hd ?_
  rintro rfl
  exact h.ends hd (by rw [hc]; rfl)

theorem EncodesSame.tail {s : CharsetDecodeState} {c : Nat} {cs : List Nat} {region rest : List UInt8}
    (h : EncodesSame s (c :: cs) region rest) : EncodesSame s cs (cs.flatMap s.encoded) rest := by
  refine ⟨fun d hd => h.has d (List.mem_cons_of_mem c hd), ⟨fun hmac hmem => ?_, fun d hd => ?_⟩, rfl,
    fun hd hlast => ?_⟩
  · exact h.convertible.cr hmac (List.mem_cons_of_mem c hmem)
  · exact h.convertible.size d (List.mem_cons_of_mem c hd)
  · refine h.ends hd ?_
    cases cs with
    | nil => exact absurd hlast (by simp)
    | cons d ds => rw [List.getLast?_cons_cons]; exact hlast

theorem EncodesSame.append {s : CharsetDecodeState} {cs ds : List Nat} {r₁ r₂ rest₁ rest₂ : List UInt8}
    (h₁ : EncodesSame s cs r₁ rest₁) (h₂ : EncodesSame s ds r₂ rest₂) :
    EncodesSame s (cs ++ ds) (r₁ ++ r₂) [] := by
  refine ⟨fun c hc => ?_, ⟨fun hmac hmem => ?_, fun c hc => ?_⟩, ?_, fun _ _ => .inl rfl⟩
  · exact (List.mem_append.mp hc).elim (h₁.has c) (h₂.has c)
  · exact (List.mem_append.mp hmem).elim (h₁.convertible.cr hmac) (h₂.convertible.cr hmac)
  · exact (List.mem_append.mp hc).elim (h₁.convertible.size c) (h₂.convertible.size c)
  · rw [List.flatMap_append, ← h₁.bytes, ← h₂.bytes]

theorem Copies.append {styles : Bool} {s : CharsetDecodeState} {r₁ r₂ rest₁ rest₂ : List UInt8}
    (h₁ : Copies styles s r₁ rest₁) (h₂ : Copies styles s r₂ rest₂) : Copies styles s (r₁ ++ r₂) [] := by
  intro hstyles
  obtain ⟨cs, hcs⟩ := h₁ hstyles
  obtain ⟨ds, hds⟩ := h₂ hstyles
  exact ⟨cs ++ ds, hcs.append hds⟩

theorem Copies.nil (styles : Bool) (s : CharsetDecodeState) : Copies styles s [] [] :=
  fun _ => ⟨[], ⟨by simp, ⟨by simp, by simp⟩, rfl, fun _ _ => .inl rfl⟩⟩

variable {Q : PageInv} {post pre : List UInt8}

/-- **The loop over a region**, to a place between two parts of the destination: after `done` have
been written, the rest of the region is. -/
theorem convertLoop_region {Q' : PageInv} {src : EditBuffer L} {rest : List UInt8} :
    ∀ (cs : List Nat) {src₁ : EditBuffer L} {b : EditBuffer (UndoLog σ)} {done : List UInt8} {o fuel : Nat},
    src.Moved Q src₁ → EncodesSame src.charsetState cs (cs.flatMap src.charsetState.encoded) rest →
    src.buf.contents.drop o = cs.flatMap src.charsetState.encoded ++ rest →
    b.Editable Q' src.charsetState (pre ++ done ++ post) →
    ((pre ++ (done ++ cs.flatMap src.charsetState.encoded) ++ post).length : Int) ≤ intMax →
    cs.length < fuel →
    ∃ r b' src', convertLoop ((o + (cs.flatMap src.charsetState.encoded).length : Nat) : Int)
        (fun _ size => (pre.length : Int) + size) fuel src₁ o b done.length = some (r, b', src') ∧
      b'.Editable Q' src.charsetState (pre ++ (done ++ cs.flatMap src.charsetState.encoded) ++ post) ∧
      src.Moved Q src' := by
  intro cs
  induction cs with
  | nil =>
    intro src₁ b done o fuel hmoved _ _ hb _ hfuel
    obtain ⟨fuel, rfl⟩ : ∃ f, fuel = f + 1 := ⟨fuel - 1, by omega⟩
    refine ⟨(done.length : Nat), b, src₁, ?_, by simpa using hb, hmoved⟩
    rw [convertLoop, if_neg (by simp)]
  | cons c cs ih =>
    intro src₁ b done o fuel hmoved hsame hdrop hb hint hfuel
    obtain ⟨fuel, rfl⟩ : ∃ f, fuel = f + 1 := ⟨fuel - 1, by omega⟩
    rw [List.flatMap_cons] at hdrop hint ⊢
    have hpos := encoded_length_pos src.charsetState c
    have hself : eolRead src.charsetState.eolType c = c := by
      refine if_neg ?_
      rintro ⟨hmac, rfl⟩
      exact hsame.convertible.cr hmac List.mem_cons_self
    have hrun := nextc_encoded (hsame.has c List.mem_cons_self) hsame.next
      (hdrop.trans (List.append_assoc _ _ _))
    rw [hself] at hrun
    obtain ⟨src₂, hstep, hmoved₂⟩ := hmoved.nextc hrun
    have hencode : ebEncodeChar32 b.charset.encodeFunc b.eolType maxCharBytes c
        = some (src.charsetState.encoded c) := by
      have hsized := CharsetDecodeState.ebEncodeChar32_sized (hsame.convertible.size c List.mem_cons_self)
      rw [← hb.state] at hsized ⊢
      exact hsized
    have hb' : b.Editable Q' src.charsetState ((pre ++ done) ++ post) := hb
    obtain ⟨b₂, hinsert, hb₂⟩ := hb'.splice hpos (by
      simp only [List.length_append] at hint ⊢
      omega)
    rw [List.append_assoc pre] at hb₂
    obtain ⟨r, b', src', hloop, hfinal, hmoved'⟩ := @ih src₂ b₂ (done ++ src.charsetState.encoded c)
      (o + (src.charsetState.encoded c).length) fuel hmoved₂ hsame.tail (by
        rw [← List.drop_drop, hdrop, List.append_assoc, List.drop_left]) hb₂
      (by rw [List.append_assoc done]; exact hint) (by simpa using hfuel)
    rw [List.append_assoc done] at hfinal
    refine ⟨r, b', src', ?_, hfinal, hmoved'⟩
    rw [convertLoop, if_pos (by rw [List.length_append]; omega), hstep]
    have hat : (pre.length : Int) + done.length = (pre ++ done).length := by
      rw [List.length_append, Nat.cast_add]
    simp only [Option.bind_eq_bind, Option.bind_some, hencode, hat, hinsert]
    rw [List.length_append, Nat.cast_add] at hloop
    rw [List.length_append, ← Nat.add_assoc]
    exact hloop

variable {b : EditBuffer (UndoLog σ)} {s : CharsetDecodeState}

/-- An edit after `last_log` has been set is not joined to the one before. -/
theorem EditBuffer.Editable.closeLog {text : List UInt8} (h : b.Editable Q s text) :
    { b with log := { b.log with lastLog := .free } }.Editable Q s text := by
  obtain ⟨⟨hwf, hro, hcont⟩, hstate, hlog, hint⟩ := h
  refine ⟨⟨hwf, hro, hcont⟩, hstate, ?_, hint⟩
  rcases hlog with hsilent | ⟨j, ⟨⟨hwf', hro', hcont'⟩, htracks, hmod, hsave, hcomp, hok, hint'⟩, htext, hcount⟩
  · exact .inl hsilent
  · refine .inr ⟨{ j with last := .free }, ⟨⟨hwf', hro', hcont'⟩, ?_, hmod, hsave, hcomp,
      ⟨hok.entries, hok.cur⟩, hint'⟩, htext, hcount⟩
    unfold UndoLog.Tracks at htracks ⊢
    cases hbuf : b.log.logBuffer with
    | none =>
      rw [hbuf] at htracks
      exact ⟨htracks.1, htracks.2.1, htracks.2.2.1, rfl⟩
    | some log =>
      rw [hbuf] at htracks
      obtain ⟨hholds, hnew, hcur, hnb, -⟩ := htracks
      exact ⟨hholds, hnew, hcur, hnb, rfl⟩

variable {region front back : List UInt8}

theorem EditBuffer.Editable.deleteRegion (h : b.Editable Q s (front ++ region ++ back)) :
    ∃ r b', b.ebDelete (front.length : Nat) (region.length : Nat) = some (r, b') ∧
      b'.Editable Q s (front ++ back) := by
  have happly : (Edit.delete (front.length : Nat) (region.length : Nat)).apply (front ++ region ++ back)
      = front ++ back := by
    simp only [Edit.apply, Edit.changes]
    by_cases hempty : region.length = 0
    · rw [if_pos (by omega), List.length_eq_zero_iff.mp hempty, List.append_nil]
      rfl
    · have hlen : (front ++ region ++ back).length = front.length + region.length + back.length := by
        simp only [List.length_append]
      have hmin : (min (region.length : Int) ((front ++ region ++ back).length - (front.length : Nat))).toNat
          = region.length := by omega
      rw [if_neg (by omega)]
      simp only [List.foldl_cons, List.foldl_nil, Change.apply, hmin, Int.toNat_natCast]
      exact deleteAt_append rfl rfl
  have hint : ((front ++ back).length : Int) ≤ intMax := by
    have hle := h.int
    simp only [List.length_append] at hle ⊢
    omega
  obtain ⟨r, b', hedit, hb', -⟩ := h.edit (e := .delete (front.length : Nat) (region.length : Nat))
    (by rw [happly]; exact hint)
  rw [happly] at hb'
  exact ⟨r, b', hedit, hb'⟩

theorem EditBuffer.Editable.insertRegion (h : b.Editable Q s (pre ++ post)) {src : PagedBuffer}
    (hwf : src.Wf PageInv.trivial) (hsrc : (src.totalSize : Int) ≤ intMax)
    (hsplit : src.contents = front ++ region ++ back) (hint : ((pre ++ region ++ post).length : Int) ≤ intMax) :
    ∃ r b' src', b.ebInsertBuffer (pre.length : Nat) src (front.length : Nat) (region.length : Nat)
        = some (r, b', src') ∧ b'.Editable Q s (pre ++ region ++ post) := by
  have htotal := hwf.total
  rw [hsplit] at htotal
  have happly : (BufferCall.insertBuffer (pre.length : Nat) ⟨src, hwf, hsrc⟩ (front.length : Nat)
      (region.length : Nat)).apply (pre ++ post) = pre ++ region ++ post := by
    have hmin : (min (pre.length : Int) (pre ++ post).length).toNat = pre.length := by
      rw [List.length_append]
      omega
    simp only [BufferCall.apply, BufferCall.changes, hmin]
    by_cases hempty : region.length = 0
    · rw [if_pos (by omega), List.length_eq_zero_iff.mp hempty, List.append_nil]
      rfl
    · simp only [List.length_append] at htotal
      rw [if_neg (by omega)]
      simp only [List.foldl_cons, List.foldl_nil, Change.apply, Int.toNat_natCast, hsplit]
      rw [slice_append rfl rfl, insertAt_append rfl]
  have hok : (BufferCall.insertBuffer (pre.length : Nat) ⟨src, hwf, hsrc⟩ (front.length : Nat)
      (region.length : Nat)).Ok (pre ++ post) := by
    refine ⟨by rw [happly]; exact hint, fun _ _ _ => ?_⟩
    simp only [List.length_append] at htotal
    exact ⟨by omega, by omega⟩
  obtain ⟨r, b', src', hcall, hb'⟩ := h.insertBuffer hok
  rw [happly] at hb'
  exact ⟨r, b', src', hcall, hb'⟩

/-- **`eb_insert_buffer_convert` of a region** between buffers of one charset puts its bytes into
the destination, if the region can be copied, and leaves the source as it is. -/
theorem EditBuffer.Editable.insertConverted {dest : EditBuffer (UndoLog σ)} {src : EditBuffer L}
    (h : dest.Editable Q src.charsetState (pre ++ post)) (hwf : src.buf.Wf PageInv.trivial)
    (hsrc : (src.buf.totalSize : Int) ≤ intMax) (hsplit : src.contents = front ++ region ++ back)
    (hint : ((pre ++ region ++ post).length : Int) ≤ intMax) (flags : ConvertFlags)
    (hcopies : Copies flags.styles src.charsetState region back) :
    ∃ r dest' src', dest.ebInsertBufferConvert flags (pre.length : Nat) src (front.length : Nat)
        (region.length : Nat) = some (r, dest', src') ∧
      dest'.Editable Q src.charsetState (pre ++ region ++ post) ∧ src.Moved PageInv.trivial src' := by
  unfold EditBuffer.ebInsertBufferConvert
  rw [h.state]
  cases hstyles : flags.styles with
  | false =>
    obtain ⟨r, dest', pages, hcall, hdest'⟩ := h.insertRegion hwf hsrc hsplit hint
    obtain ⟨hsame, hpages⟩ := EditBuffer.ebInsertBuffer_source hwf hcall
    refine ⟨r, dest', { src with buf := pages }, ?_, hdest', ⟨hsame, hpages, rfl⟩⟩
    rw [if_pos ⟨rfl, rfl⟩, hcall]
    rfl
  | true =>
    obtain ⟨cs, hsame⟩ := hcopies hstyles
    obtain rfl := hsame.bytes
    have htotal := hwf.total
    rw [show src.buf.contents = _ from hsplit] at htotal
    simp only [List.length_append] at htotal
    have hlen := length_le_flatMap_encoded src.charsetState cs
    have hmax : min (src.buf.totalSize : Int)
        (wrap32 ((front.length : Nat) + (cs.flatMap src.charsetState.encoded).length))
        = ((front.length + (cs.flatMap src.charsetState.encoded).length : Nat) : Int) := by
      rw [wrap32_of_isInt32 ⟨by omega, by omega⟩]
      omega
    rw [if_neg (by simp)]
    simp only [hmax]
    rw [if_neg (by simp)]
    have hdest : dest.Editable Q src.charsetState (pre ++ [] ++ post) := by
      rw [List.append_nil]
      exact h
    have hdrop : src.buf.contents.drop front.length = cs.flatMap src.charsetState.encoded ++ back := by
      rw [show src.buf.contents = _ from hsplit, List.append_assoc, List.drop_left]
    exact convertLoop_region cs (.refl hwf) hsame hdrop hdest hint (by omega)

end Region

end Qemacs
