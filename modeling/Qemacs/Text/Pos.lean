import Qemacs.Charset.Pos
import Qemacs.Text.Flat

/-!
# `eb_get_pos`

The line and the column of an offset. Pages keep a summary of themselves, the position at their
end, made when it is first asked for and thrown away by `update_page`; `eb_get_pos` adds up the
summaries of the pages before the offset and looks at bytes in the last page only.

`posInv` is what makes that right: a summary that is marked valid is the one of the bytes that
are there now. An edit marks the pages it touches, so it keeps `posInv` without having to know
it; see `PageInv`. The rest is that positions add up, wherever the pages end.
-/

namespace Qemacs

open Lib

/-! ## The function -/

/-- The summary of a page: `nb_lines` and `col`. -/
def Page.pos (p : Page) : Pos := ⟨p.nbLines, p.col⟩

/-- `if (!(p->flags & PG_VALID_POS))`: the summary is made now. -/
def Page.validatePos (s : CharsetDecodeState) (p : Page) : Page :=
  if p.validPos then p
  else
    { p with
      validPos := true
      nbLines := (s.getPosFunc p.data).line
      col := (s.getPosFunc p.data).col }

/-- The loop of `eb_get_pos`, over the pages from the current one on: `line` and `col` go on as
`Pos.add` says. -/
def getPosLoop (s : CharsetDecodeState) : List Page → Nat → Pos → Pos × List Page
  | [], _, pos => (pos, [])
  | p :: ps, offset, pos =>
      if offset < p.size then (pos + s.getPosFunc (p.data.take offset), p :: ps)
      else
        let q := p.validatePos s
        let r := getPosLoop s ps (offset - p.size) (pos + q.pos)
        (r.1, q :: r.2)

def EditBuffer.ebGetPos {L : Type} (b : EditBuffer L) (offset : Nat) : Pos × EditBuffer L :=
  let r := getPosLoop b.charsetState b.buf.pageTable offset 0
  (r.1, { b with buf := { b.buf with pageTable := r.2 } })

/-! ## Summaries -/

/-- A valid summary is the summary of the page. -/
def posInv (s : CharsetDecodeState) : PageInv where
  holds p := p.validPos = true → p.pos = s.getPosFunc p.data
  of_stale p h _ hv := absurd (h.symm.trans hv) (by simp)

@[simp] theorem Page.validatePos_data (s : CharsetDecodeState) (p : Page) :
    (p.validatePos s).data = p.data := by
  unfold Page.validatePos
  split <;> rfl

variable {s : CharsetDecodeState}

theorem PageOk.validatePos {p : Page} (h : PageOk (posInv s) p) :
    PageOk (posInv s) (p.validatePos s) ∧ (p.validatePos s).pos = s.getPosFunc p.data := by
  have hpos : (p.validatePos s).pos = s.getPosFunc p.data := by
    by_cases hv : p.validPos = true
    · rw [Page.validatePos, if_pos hv]
      exact h.summary hv
    · rw [Page.validatePos, if_neg hv]
      rfl
  refine ⟨⟨?_, ?_, fun _ => ?_⟩, hpos⟩
  · rw [Page.size, p.validatePos_data]
    exact h.pos
  · rw [Page.size, p.validatePos_data]
    exact h.le
  · rw [hpos, p.validatePos_data]

/-- The same bytes in the same pages, whose summaries may have been made. -/
structure Refreshed (Q : PageInv) (ps ps' : List Page) : Prop where
  data : ps'.map Page.data = ps.map Page.data
  pages : ∀ p ∈ ps', PageOk Q p

theorem Refreshed.flat_take {Q : PageInv} {ps ps' : List Page} (h : Refreshed Q ps ps') (i : Nat) :
    flat (ps'.take i) = flat (ps.take i) := by
  rw [flat, flat, List.map_take, List.map_take, h.data]

theorem Refreshed.flat {Q : PageInv} {ps ps' : List Page} (h : Refreshed Q ps ps') : flat ps' = flat ps := by
  rw [Qemacs.flat, Qemacs.flat, h.data]

theorem Refreshed.wf {Q : PageInv} {b : PagedBuffer} (hb : b.Wf Q) {ps : List Page}
    (h : Refreshed Q b.pageTable ps) : { b with pageTable := ps }.Wf Q := by
  refine ⟨h.pages, ?_, ?_⟩
  · rw [PagedBuffer.contents, h.flat]
    exact hb.total
  · intro i hi
    obtain ⟨hlt, hoff⟩ := hb.cache i hi
    refine ⟨?_, ?_⟩
    · have hlen : ps.length = b.pageTable.length := by
        simpa only [List.length_map] using congrArg List.length h.data
      show i < ps.length
      rw [hlen]
      exact hlt
    · rw [h.flat_take]
      exact hoff

/-! ## Adding up the pages -/

theorem CharsetDecodeState.getPosFunc_8bit (h8 : s.charset.Is8bit) : s.getPosFunc = charsetGetPos8bit s := by
  unfold CharsetDecodeState.getPosFunc
  cases hc : s.charset <;> first | rfl | exact absurd (hc ▸ h8) (by simp [QECharset.Is8bit])

theorem getPosLoop_refreshed : ∀ (ps : List Page) (offset : Nat)
    (pos : Pos), (∀ p ∈ ps, PageOk (posInv s) p) →
    Refreshed (posInv s) ps (getPosLoop s ps offset pos).2 := by
  intro ps
  induction ps with
  | nil => intro offset pos h; exact ⟨rfl, h⟩
  | cons p ps ih =>
    intro offset pos h
    rw [getPosLoop]
    by_cases hin : offset < p.size
    · rw [if_pos hin]
      exact ⟨rfl, h⟩
    · rw [if_neg hin]
      obtain ⟨hq, hqs⟩ := ih (offset - p.size) (pos + (p.validatePos s).pos)
        fun q hq => h q (List.mem_cons_of_mem p hq)
      refine ⟨by rw [List.map_cons, List.map_cons, hq, p.validatePos_data], ?_⟩
      intro q hmem
      rcases List.mem_cons.mp hmem with rfl | hmem
      · exact (h p List.mem_cons_self).validatePos.1
      · exact hqs q hmem

/-- **The sum over the pages is the position of the text.** -/
theorem getPosLoop_eq (h8 : s.charset.Is8bit) : ∀ (ps : List Page)
    (offset : Nat) (pos : Pos), (∀ p ∈ ps, PageOk (posInv s) p) → s.LfOk true (flat ps) →
    (getPosLoop s ps offset pos).1 = pos + s.posOf ((flat ps).take offset) := by
  intro ps
  induction ps with
  | nil => intro offset pos _ _; rw [getPosLoop, flat_nil, List.take_nil, s.posOf_nil, Pos.add_zero]
  | cons p ps ih =>
    intro offset pos h hlf
    rw [flat_cons] at hlf ⊢
    obtain ⟨hlf₁, hlf₂⟩ := hlf.append
    rw [getPosLoop]
    by_cases hin : offset < p.size
    · have hpart : s.LfOk true (p.data.take offset) := by
        rw [← List.take_append_drop offset p.data] at hlf₁
        exact hlf₁.append.1
      rw [if_pos hin, s.getPosFunc_8bit h8, charsetGetPos8bit_eq hpart,
        List.take_append_of_le_length (Nat.le_of_lt hin)]
    · have hsum := (h p List.mem_cons_self).validatePos.2
      rw [s.getPosFunc_8bit h8, charsetGetPos8bit_eq hlf₁] at hsum
      rw [if_neg hin, List.take_append, List.take_of_length_le (Nat.le_of_not_lt hin), s.posOf_append,
        ← Pos.add_assoc, ← hsum]
      exact ih _ _ (fun q hq => h q (List.mem_cons_of_mem p hq)) hlf₂

/-! ## The characters `eb_nextc` delivers -/

/-- Carriage returns and line feeds come in pairs only. -/
inductive DosPaired : List UInt8 → Prop
  | nil : DosPaired []
  | eol {text : List UInt8} : DosPaired text → DosPaired (13 :: 10 :: text)
  | char {c : UInt8} {text : List UInt8} : c ≠ 13 → c ≠ 10 → DosPaired text → DosPaired (c :: text)

variable {text : List UInt8}

theorem DosPaired.lfOk (h : DosPaired text) : s.LfOk false text := by
  induction h with
  | nil => exact True.intro
  | eol _ ih => exact ⟨fun _ hc => absurd hc (by decide), fun _ _ => rfl, ih⟩
  | @char c text hcr hlf _ ih =>
    refine ⟨fun _ hc => absurd hc hlf, ?_⟩
    rw [decide_eq_false hcr]
    exact ih

theorem DosPaired.append {text text' : List UInt8} (h : DosPaired text) (h' : DosPaired text') :
    DosPaired (text ++ text') := by
  induction h with
  | nil => exact h'
  | eol _ ih => exact .eol ih
  | char hcr hlf _ ih => exact .char hcr hlf ih

/-- In an 8-bit charset `eb_nextc` looks the byte up and then sees to the line ends. -/
theorem nextc_8bit {s : CharsetDecodeState} (h8 : s.charset.Is8bit) {text rest : List UInt8}
    {o : Nat} {c : UInt8} (hdrop : text.drop o = c :: rest) :
    (nextc s o).run text = (nextcEol s (s.table c) (o + 1)).run text := by
  have hbyte := byteAt_of_drop hdrop
  simp only [nextc, StateT.run_bind, run_ebReadOneByte, hbyte, Option.bind_eq_bind, Option.bind_some]
  rw [if_neg (by omega)]
  simp only [nextcDecode, Int.toNat_natCast, UInt8.ofNat_toNat, if_neg (s.table_8bit h8 c).1]
  rfl

/-- A carriage return of `EOL_DOS` takes the line feed behind it. -/
theorem nextcEol_pair (hd : s.eolType = .dos) {bytes : List UInt8} {o : Nat}
    (hbytes : bytesAt text ((o + 1 : Nat) : Int) maxCharBytes = 10 :: bytes)
    (hdecode : s.decodeFunc (10 :: bytes) = some (10, 1)) :
    (nextcEol s 13 ((o + 1 : Nat) : Int)).run text = some ((10, ((o + 2 : Nat) : Int)), text) := by
  have hsize : s.charSize = 1 := by
    unfold CharsetDecodeState.charSize
    cases s.charset <;> rfl
  rw [nextcEol, if_pos rfl, hd]
  simp only [StateT.run_bind, run_ebRead, hbytes, Option.bind_eq_bind, Option.bind_some]
  rw [if_pos (by simp)]
  simp only [StateT.run_bind, hdecode, run_known, Option.bind_eq_bind, Option.bind_some, hsize]
  rw [if_pos True.intro]
  simp only [StateT.run_pure, Option.pure_def, Option.some.injEq, Prod.mk.injEq, true_and, and_true]
  omega

theorem nextc_pair (h8 : s.charset.Is8bit) (hd : s.eolType = .dos) {rest : List UInt8} {o : Nat}
    (hdrop : text.drop o = 13 :: 10 :: rest) :
    (nextc s o).run text = some ((10, ((o + 2 : Nat) : Int)), text) := by
  have hcr : s.table 13 = 13 := (s.table_8bit h8 13).2.2.mpr rfl
  have hlf : s.table 10 = 10 := (s.table_8bit h8 10).2.1.mpr rfl
  have hbytes : bytesAt text ((o + 1 : Nat) : Int) maxCharBytes = 10 :: rest.take 5 := by
    rw [bytesAt, if_neg (by omega), slice, Int.toNat_natCast, Int.toNat_natCast, ← List.drop_drop, hdrop]
    rfl
  have hdecode : s.decodeFunc (10 :: rest.take 5) = some (10, 1) := by
    rw [s.decodeFunc_8bit h8, decode8bit, hlf]
  rw [nextc_8bit h8 hdrop, hcr]
  exact nextcEol_pair hd hbytes hdecode

/-- Any other byte is one, and it is a newline where `get_pos_func` counts one. -/
theorem nextc_byte (h8 : s.charset.Is8bit) {rest : List UInt8} {o : Nat} {c : UInt8} (hdrop : text.drop o = c :: rest)
    (hc : s.eolType = .dos → c ≠ 13 ∧ c ≠ 10) :
    ∃ ch, (nextc s o).run text = some ((ch, ((o + 1 : Nat) : Int)), text) ∧
      lineCol (· == 10) [ch] = s.posOf [c] := by
  have hten : s.charset.eolChar = 10 := by cases s.charset <;> rfl
  obtain ⟨-, hlf, hcr⟩ := s.table_8bit h8 c
  rw [nextc_8bit h8 hdrop, nextcEol, s.posOf_singleton c fun h => (hc h.1).2 h.2]
  simp only [lineCol_singleton, beq_iff_eq]
  rw [CharsetDecodeState.eolChar, hten]
  cases he : s.eolType with
  | unix =>
    refine ⟨s.table c, ?_, ?_⟩
    · simp only [ite_self]
      rfl
    · simp [hlf]
  | mac =>
    by_cases h13 : c = 13
    · refine ⟨10, ?_, by simp [h13]⟩
      rw [if_pos (hcr.mpr h13)]
      rfl
    · by_cases h10 : c = 10
      · refine ⟨13, ?_, by simp [h10]⟩
        rw [if_neg fun h => h13 (hcr.mp h), if_pos (hlf.mpr h10)]
        rfl
      · refine ⟨s.table c, ?_, ?_⟩
        · rw [if_neg fun h => h13 (hcr.mp h), if_neg fun h => h10 (hlf.mp h)]
          rfl
        · simp [hlf, h13, h10]
  | dos =>
    obtain ⟨h13, h10⟩ := hc he
    refine ⟨s.table c, ?_, ?_⟩
    · rw [if_neg fun h => h13 (hcr.mp h), if_neg fun h => h10 (hlf.mp h)]
      rfl
    · simp [hlf, h13, h10]

/-- **One character on.** It takes `len` bytes, and goes on by as much as they do. -/
theorem nextc_step {s : CharsetDecodeState} (h8 : s.charset.Is8bit) {text rest : List UInt8}
    {o : Nat} (hdrop : text.drop o = rest) (hne : rest ≠ [])
    (hpair : s.eolType = .dos → DosPaired rest) :
    ∃ ch len, (nextc s o).run text = some ((ch, ((o + len : Nat) : Int)), text) ∧ 0 < len ∧
      len ≤ rest.length ∧ lineCol (· == 10) [ch] = s.posOf (rest.take len) ∧
      (s.eolType = .dos → DosPaired (rest.take len) ∧ DosPaired (rest.drop len)) := by
  have hbyte : ∀ {c : UInt8} {rest' : List UInt8}, rest = c :: rest' →
      (s.eolType = .dos → c ≠ 13 ∧ c ≠ 10 ∧ DosPaired rest') → ∃ ch len,
      (nextc s o).run text = some ((ch, ((o + len : Nat) : Int)), text) ∧ 0 < len ∧
      len ≤ rest.length ∧ lineCol (· == 10) [ch] = s.posOf (rest.take len) ∧
      (s.eolType = .dos → DosPaired (rest.take len) ∧ DosPaired (rest.drop len)) := by
    rintro c rest' rfl hc
    obtain ⟨ch, hrun, hpos⟩ := nextc_byte h8 hdrop fun hd => ⟨(hc hd).1, (hc hd).2.1⟩
    exact ⟨ch, 1, hrun, Nat.one_pos, by simp, hpos,
      fun hd => ⟨.char (hc hd).1 (hc hd).2.1 .nil, (hc hd).2.2⟩⟩
  by_cases hd : s.eolType = .dos
  · cases hpair hd with
    | nil => exact absurd rfl hne
    | @eol rest' hrest =>
      have hpos : s.posOf [13, 10] = ⟨1, 0⟩ := by
        rw [s.posOf_cons, s.posOf_lf hd, s.posOf_singleton 13 (by simp), s.eolChar_dos hd]
        rfl
      exact ⟨10, 2, nextc_pair h8 hd hdrop, Nat.two_pos, by simp, hpos.symm, fun _ => ⟨.eol .nil, hrest⟩⟩
    | char hcr hlf hrest => exact hbyte rfl fun _ => ⟨hcr, hlf, hrest⟩
  · obtain ⟨c, rest', hrest⟩ := List.exists_cons_of_ne_nil hne
    exact hbyte hrest fun h => absurd h hd

section Delivers

variable {L : Type}

/-- Stepping from the beginning with `eb_nextc` delivers the characters `cs` and leads to an
offset, the buffer then being `b'`. No step is taken at the end of the buffer, where `eb_nextc`
delivers a newline that is not there. -/
inductive EditBuffer.Delivers (b : EditBuffer L) : Int → List Nat → EditBuffer L → Prop
  | start : b.Delivers 0 [] b
  | next {o n : Int} {c : Nat} {cs : List Nat} {b₁ b₂ : EditBuffer L} : b.Delivers o cs b₁ →
      o < b₁.buf.totalSize → b₁.ebNextc o = some ((c, n), b₂) → b.Delivers n (cs ++ [c]) b₂

/-- The characters `cs` go as far as the bytes passed over. -/
structure EditBuffer.Passed (Q : PageInv) (b : EditBuffer L) (k : Nat) (cs : List Nat)
    (b₁ : EditBuffer L) : Prop where
  moved : b.Moved Q b₁
  le : k ≤ b.buf.contents.length
  pos : lineCol (· == 10) cs = b.charsetState.posOf (b.buf.contents.take k)
  front : b.eolType = .dos → DosPaired (b.buf.contents.take k)
  rest : b.eolType = .dos → DosPaired (b.buf.contents.drop k)

theorem EditBuffer.Passed.next {Q : PageInv} {b b₁ : EditBuffer L} (hb : b.buf.Wf Q)
    (h8 : b.charset.Is8bit) {k : Nat} {cs : List Nat} (h : b.Passed Q k cs b₁)
    (hk : k < b₁.buf.totalSize) :
    ∃ c len b₂, b₁.ebNextc k = some ((c, ((k + len : Nat) : Int)), b₂) ∧ 0 < len ∧
      b.Passed Q (k + len) (cs ++ [c]) b₂ := by
  have hne : b.buf.contents.drop k ≠ [] := by
    rw [h.moved.same.2, hb.total] at hk
    rw [ne_eq, List.drop_eq_nil_iff]
    omega
  obtain ⟨c, len, hrun, hpos, hlen, hchar, hrest⟩ := nextc_step (s := b.charsetState) h8 rfl hne h.rest
  obtain ⟨b₂, hb₂, hmoved⟩ := h.moved.nextc hrun
  refine ⟨c, len, b₂, hb₂, hpos, hmoved, ?_, ?_, ?_, ?_⟩
  · have hle := h.le
    rw [List.length_drop] at hlen
    omega
  · rw [lineCol_append, h.pos, hchar, List.take_add, CharsetDecodeState.posOf_append]
  · intro hd
    rw [List.take_add]
    exact (h.front hd).append (hrest hd).1
  · intro hd
    rw [← List.drop_drop]
    exact (hrest hd).2

variable {b : EditBuffer L}

theorem EditBuffer.Delivers.passed {Q : PageInv} {b₁ : EditBuffer L} (hb : b.buf.Wf Q) (h8 : b.charset.Is8bit)
    (hpair : b.eolType = .dos → DosPaired b.buf.contents) {o : Int} {cs : List Nat} (h : b.Delivers o cs b₁)
    : ∃ k : Nat, o = k ∧ b.Passed Q k cs b₁ := by
  induction h with
  | start => exact ⟨0, rfl, .refl hb, Nat.zero_le _, by simp, fun _ => .nil, hpair⟩
  | @next o n c cs b₁ b₂ _ ho hstep ih =>
    obtain ⟨k, rfl, hpassed⟩ := ih
    obtain ⟨c', len, b', hb', -, hpassed'⟩ := hpassed.next hb h8 (by omega)
    have hsame := Option.some.inj (hstep.symm.trans hb')
    simp only [Prod.mk.injEq] at hsame
    obtain ⟨⟨rfl, rfl⟩, rfl⟩ := hsame
    exact ⟨_, rfl, hpassed'⟩

theorem EditBuffer.ebGetPos_eq (h8 : b.charset.Is8bit) (hb : b.buf.Wf (posInv b.charsetState))
    (hlf : b.charsetState.LfOk true b.buf.contents) (offset : Nat) :
    (b.ebGetPos offset).1 = b.charsetState.posOf (b.buf.contents.take offset) := by
  rw [EditBuffer.ebGetPos]
  exact (getPosLoop_eq h8 _ offset 0 hb.pages hlf).trans (Pos.zero_add _)

theorem EditBuffer.ebGetPos_refreshed (hb : b.buf.Wf (posInv b.charsetState)) (offset : Nat) :
    Refreshed (posInv b.charsetState) b.buf.pageTable (b.ebGetPos offset).2.buf.pageTable :=
  getPosLoop_refreshed _ _ _ hb.pages

theorem EditBuffer.ebGetPos_wf (hb : b.buf.Wf (posInv b.charsetState)) (offset : Nat)
    : (b.ebGetPos offset).2.buf.Wf (posInv b.charsetState) :=
  (EditBuffer.ebGetPos_refreshed hb offset).wf hb

end Delivers

/-! ## Runs -/

/-- A call of the buffer interface, or one of `eb_get_pos`. -/
inductive PosCall
  | call (c : BufferCall)
  | getPos (offset : Nat)

def PosCall.apply (text : List UInt8) : PosCall → List UInt8
  | call c => c.apply text
  | getPos _ => text

def PosCall.Ok (text : List UInt8) : PosCall → Prop
  | call c => c.Ok text
  | getPos _ => True

instance (text : List UInt8) : ∀ call : PosCall, Decidable (call.Ok text)
  | .call c => inferInstanceAs (Decidable (c.Ok text))
  | .getPos _ => inferInstanceAs (Decidable True)

def EditBuffer.posCall {L : Type} [EditLog L] (b : EditBuffer L) : PosCall → Option (EditBuffer L)
  | .call c => b.call c
  | .getPos offset => some (b.ebGetPos offset).2

section Run

variable {σ : Type}

theorem EditBuffer.Editable.posCall {b : EditBuffer (UndoLog σ)} (h : b.Editable (posInv s) s text) {c : PosCall}
    (hok : c.Ok text) :
    ∃ b', b.posCall c = some b' ∧ b'.Editable (posInv s) s (c.apply text) := by
  cases c with
  | call c => exact h.call hok
  | getPos offset =>
    obtain rfl := h.state
    exact ⟨_, rfl, h.setPages (EditBuffer.ebGetPos_refreshed h.holds.wf offset).flat
      (EditBuffer.ebGetPos_wf h.holds.wf offset)⟩

/-- **`eb_get_pos` is exact.** On a buffer of an 8-bit charset that has been loaded and then used
in any way, the position of an offset that `eb_nextc` steps to is the number of newlines it
delivers on the way and the number of characters since the last of them; and before the end
there is always a next step. -/
theorem getPos_exact {b : EditBuffer (UndoLog σ)} {text : List UInt8} (hb : b.Fresh text)
    (h8 : b.charset.Is8bit) {calls : List PosCall} (hok : Meets PosCall.Ok PosCall.apply text calls)
    (hdos : b.eolType = .dos → DosPaired (calls.foldl PosCall.apply text)) :
    ∃ b', run EditBuffer.posCall b calls = some b' ∧
      ∀ {o : Int} {cs : List Nat} {b₁ : EditBuffer (UndoLog σ)}, b'.Delivers o cs b₁ →
        (b'.ebGetPos o.toNat).1 = ⟨cs.count 10, (cs.reverse.takeWhile (· != 10)).length⟩ ∧
        (o < b₁.buf.totalSize → ∃ c n b₂, b₁.ebNextc o = some ((c, n), b₂) ∧ o < n) := by
  obtain ⟨b', hrun, hedit⟩ := run_simulates (fun _ _ _ h hok => h.posCall hok) calls b text
    (hb.editable (posInv b.charsetState)) hok
  have hstate := hedit.state
  have hcharset : b'.charset = b.charset := congrArg CharsetDecodeState.charset hstate
  have heol : b'.eolType = b.eolType := congrArg CharsetDecodeState.eolType hstate
  have hcont : b'.buf.contents = calls.foldl PosCall.apply text := hedit.holds.contents
  rw [← hstate] at hedit
  rw [← hcharset] at h8
  rw [← heol, ← hcont] at hdos
  have hlf : b'.charsetState.LfOk true b'.buf.contents := by
    by_cases hd : b'.eolType = .dos
    · exact (hdos hd).lfOk.skip
    · exact CharsetDecodeState.lfOk_of_ne_dos hd _ _
  refine ⟨b', hrun, fun {o cs b₁} hdel => ?_⟩
  obtain ⟨k, rfl, hpassed⟩ := hdel.passed hedit.holds.wf h8 hdos
  refine ⟨?_, ?_⟩
  · rw [EditBuffer.ebGetPos_eq h8 hedit.holds.wf hlf, Int.toNat_natCast, ← hpassed.pos]
    rfl
  · intro hlt
    obtain ⟨c, len, b₂, hb₂, hpos, -⟩ := hpassed.next hedit.holds.wf h8 (by omega)
    exact ⟨c, _, b₂, hb₂, by omega⟩

end Run

/-- Two lines, with the pages cut between the carriage return and its line feed. -/
def EditBuffer.crlf : EditBuffer (UndoLog Unit) :=
  { buf := .ofPages [{ data := [97, 13] }, { data := [10, 98] }], eolType := .dos, log := { client := () } }

/-- The position of its end is asked for, and then a byte is inserted into its second line. -/
theorem getPos_exact_crlf :
    ∃ b', run EditBuffer.posCall .crlf [.getPos 4, .call (.edit (.insert 3 (.ofList [99])))]
        = some b' ∧
      ∀ {o : Int} {cs : List Nat} {b₁ : EditBuffer (UndoLog Unit)}, b'.Delivers o cs b₁ →
        (b'.ebGetPos o.toNat).1 = ⟨cs.count 10, (cs.reverse.takeWhile (· != 10)).length⟩ ∧
        (o < b₁.buf.totalSize → ∃ c n b₂, b₁.ebNextc o = some ((c, n), b₂) ∧ o < n) := by
  have hfresh : EditBuffer.crlf.Fresh [97, 13, 10, 98] := by
    refine ⟨rfl, ?_, by decide, rfl, rfl, rfl, rfl, by decide⟩
    unfold maxPageSize
    decide
  have hpair : DosPaired [97, 13, 10, 99, 98] :=
    .char (by decide) (by decide) (.eol (.char (by decide) (by decide) (.char (by decide) (by decide) .nil)))
  exact getPos_exact hfresh True.intro (by decide) fun _ => hpair

end Qemacs
