import Qemacs.Markup.Tag
import Qemacs.Text.Stage

/-!
# The memory of a string buffer

`StringBuffer.addch` has no result where a character does not fit. Here is what the program then does: it writes on.
`strbuf_addch` asks for one free byte, and the block grows only once it is full, so that a character of several bytes
is written over the end of the block if it would be in two blocks.
-/

namespace Qemacs

/-- `StringBuffer`: whether `buf` is the array inside of it, and the memory that `buf` points to. -/
structure StringMemory where
  inline : Bool
  allocatedSize : Nat
  size : Nat
  buf : Nat → UInt8

/-- `strbuf_init`: there may be anything in the array. -/
def strbufInit (buf1 : Nat → UInt8) : StringMemory := ⟨true, stringBufSize, 0, buf1⟩

namespace StringMemory

/-- `b->size += utf8_encode((char*)b->buf + b->size, ch)`. -/
def put (ch : Nat) (b : StringMemory) : StringMemory :=
  { b with
    size := b.size + (utf8Encode ch).length
    buf := fun i => if b.size ≤ i then (utf8Encode ch).getD (i - b.size) (b.buf i) else b.buf i }

/-- The reallocation of `strbuf_addch1`. `heap` is what is in a new block of some size. -/
def grow (heap : Nat → Nat → UInt8) (b : StringMemory) : StringMemory :=
  let size1 := b.allocatedSize + stringBufSize
  let kept := if b.inline then stringBufSize else b.allocatedSize
  { b with inline := false, allocatedSize := size1, buf := fun i => if i < kept then b.buf i else heap size1 i }

/-- `strbuf_addch`. -/
def addch (heap : Nat → Nat → UInt8) (b : StringMemory) (ch : Nat) : StringMemory :=
  if b.size < b.allocatedSize then b.put ch else (b.grow heap).put ch

def contents (b : StringMemory) : List UInt8 := (List.range b.size).map b.buf

end StringMemory

/-- Characters are added to a new buffer. -/
def strbufRun (buf1 : Nat → UInt8) (heap : Nat → Nat → UInt8) (chs : List Nat) : StringMemory :=
  chs.foldl (StringMemory.addch heap) (strbufInit buf1)

/-- Every byte that is written is in the block: those of a character are the ones between the two sizes. -/
def StringMemory.InBounds (buf1 : Nat → UInt8) (heap : Nat → Nat → UInt8) (chs : List Nat) : Prop :=
  ∀ pre ch post, chs = pre ++ ch :: post → ∀ i, (strbufRun buf1 heap pre).size ≤ i →
    i < (strbufRun buf1 heap (pre ++ [ch])).size → i < (strbufRun buf1 heap (pre ++ [ch])).allocatedSize

/-- No character is in two blocks of the text. -/
def WholeInBlocks (chs : List Nat) : Prop :=
  ∀ pre ch post, chs = pre ++ ch :: post →
    (pre.flatMap utf8Encode).length % stringBufSize + (utf8Encode ch).length ≤ stringBufSize

/-! ## One character -/

section Run

variable {buf1 : Nat → UInt8} {heap : Nat → Nat → UInt8} {b : StringMemory} {s : StringBuffer}

/-- The memory holds the bytes of a buffer, whose last block has been begun. -/
structure StringMemory.Holds (b : StringMemory) (s : StringBuffer) : Prop where
  contents : b.contents = s.buf
  allocated : b.allocatedSize = s.allocatedSize
  inline : b.inline = true → b.allocatedSize = stringBufSize
  blocks : ∃ k, s.allocatedSize = (k + 1) * stringBufSize ∧ s.buf.length ≤ s.allocatedSize ∧
    (k = 0 ∨ k * stringBufSize < s.buf.length)

theorem StringMemory.Holds.size (h : b.Holds s) : b.size = s.buf.length := by
  rw [← h.contents, StringMemory.contents, List.length_map, List.length_range]

theorem StringMemory.holds_init (buf1 : Nat → UInt8) : (strbufInit buf1).Holds {} where
  contents := rfl
  allocated := rfl
  inline _ := rfl
  blocks := ⟨0, rfl, Nat.zero_le _, .inl rfl⟩

theorem StringMemory.contents_grow (hinline : b.inline = true → b.allocatedSize = stringBufSize)
    (hsize : b.size ≤ b.allocatedSize) : (b.grow heap).contents = b.contents := by
  refine List.map_congr_left fun i hi => ?_
  have hlt : i < b.size := List.mem_range.mp hi
  have hkept : i < if b.inline then stringBufSize else b.allocatedSize := by
    split
    · rename_i h
      have := hinline h
      omega
    · omega
  exact if_pos hkept

theorem StringMemory.contents_put (ch : Nat) (b : StringMemory) : (b.put ch).contents
  = b.contents ++ utf8Encode ch := by
  refine List.ext_getElem (by simp [contents, put]) fun i h1 h2 => ?_
  rw [List.getElem_append]
  simp only [contents, put, List.getElem_map, List.getElem_range, List.length_map, List.length_range]
  by_cases hi : i < b.size
  · rw [if_neg (Nat.not_le.mpr hi), dif_pos hi]
  · rw [if_pos (Nat.le_of_not_lt hi), dif_neg hi]
    simp only [contents, put, List.length_map, List.length_range] at h1
    rw [List.getD_eq_getElem?_getD, List.getElem?_eq_getElem (by omega), Option.getD_some]

theorem StringBuffer.addch_blocks {k : Nat} (hsize : s.allocatedSize = (k + 1) * stringBufSize)
    (hle : s.buf.length ≤ s.allocatedSize) (hlast : k = 0 ∨ k * stringBufSize < s.buf.length) (ch : Nat) :
    (s.buf.length % stringBufSize + (utf8Encode ch).length ≤ stringBufSize ↔ s.addch ch ≠ none) := by
  have hshort := utf8Encode_length_le ch
  have hroom : maxCharBytes ≤ stringBufSize := by decide
  have hmul : (k + 1) * stringBufSize = k * stringBufSize + stringBufSize := Nat.succ_mul k stringBufSize
  unfold StringBuffer.addch
  simp only []
  by_cases hlt : s.buf.length < s.allocatedSize
  · have hge : k * stringBufSize ≤ s.buf.length := by
      rcases hlast with rfl | h
      · rw [Nat.zero_mul]
        exact Nat.zero_le _
      · exact Nat.le_of_lt h
    have hmod : s.buf.length % stringBufSize = s.buf.length - k * stringBufSize := by
      obtain ⟨r, hr⟩ := Nat.exists_eq_add_of_le hge
      rw [hr, Nat.add_sub_cancel_left, Nat.add_comm, Nat.add_mul_mod_self_right, Nat.mod_eq_of_lt (by omega)]
    rw [if_pos hlt, hmod]
    split
    · exact iff_of_true (by omega) (by simp)
    · exact iff_of_false (by omega) (by simp)
  · have hfull : s.buf.length = (k + 1) * stringBufSize := by omega
    rw [if_neg hlt, hfull, Nat.mul_mod_left]
    exact iff_of_true (by omega) (by simp)

/-- **A character that fits** is added as `StringBuffer.addch` says. -/
theorem StringMemory.Holds.addch (h : b.Holds s) {ch : Nat} {s' : StringBuffer} (hadd : s.addch ch = some s') :
    (b.addch heap ch).Holds s' ∧ s'.buf = s.buf ++ utf8Encode ch := by
  have hsize := h.size
  have hpos := (length_utf8Encode ch).1
  have hshort := utf8Encode_length_le ch
  have hroom : maxCharBytes ≤ stringBufSize := by decide
  obtain ⟨k, hk, hle, hlast⟩ := h.blocks
  rw [StringMemory.addch, h.allocated, hsize]
  unfold StringBuffer.addch at hadd
  simp only [] at hadd
  split at hadd
  · rename_i hlt
    split at hadd
    · rename_i hfits
      cases hadd
      rw [if_pos hlt]
      refine ⟨⟨by rw [contents_put, h.contents], h.allocated, h.inline, k, hk, ?_, ?_⟩, rfl⟩
      · rw [List.length_append]
        exact hfits
      · rw [List.length_append]
        omega
    · cases hadd
  · rename_i hlt
    cases hadd
    have halloc := h.allocated
    have hmul : (k + 1 + 1) * stringBufSize = (k + 1) * stringBufSize + stringBufSize := Nat.succ_mul _ _
    rw [if_neg hlt]
    refine ⟨⟨?_, by rw [← h.allocated]; rfl, fun hin => absurd hin Bool.false_ne_true, k + 1, ?_, ?_, .inr ?_⟩, rfl⟩
    · rw [contents_put, contents_grow h.inline (by omega), h.contents]
    · rw [hmul, ← hk]
    · simp only [List.length_append]
      omega
    · simp only [List.length_append]
      omega

theorem StringMemory.Holds.overrun (h : b.Holds s) {ch : Nat} (hadd : s.addch ch = none) :
    b.size < (b.addch heap ch).allocatedSize ∧ (b.addch heap ch).allocatedSize < (b.addch heap ch).size := by
  have hsize := h.size
  have halloc := h.allocated
  unfold StringBuffer.addch at hadd
  simp only [] at hadd
  split at hadd
  · rename_i hlt
    split at hadd
    · cases hadd
    · rename_i hfits
      rw [StringMemory.addch, if_pos (by omega)]
      simp only [put]
      omega
  · cases hadd

/-! ## Runs -/

theorem strbufRun_append (chs : List Nat) (ch : Nat) :
    strbufRun buf1 heap (chs ++ [ch]) = (strbufRun buf1 heap chs).addch heap ch := by
  rw [strbufRun, List.foldl_append]
  rfl

theorem eq_or_of_append_singleton {α : Type} {chs pre post : List α} {ch ch' : α}
    (h : chs ++ [ch] = pre ++ ch' :: post) : chs = pre ∧ ch = ch' ∧ post = [] ∨ ∃ post', chs = pre ++ ch' :: post' := by
  rcases List.eq_nil_or_concat post with rfl | ⟨post', x, rfl⟩
  · obtain ⟨rfl, heq⟩ := List.append_inj' h rfl
    exact .inl ⟨rfl, (List.singleton_inj.mp heq), rfl⟩
  · rw [List.concat_eq_append, ← List.cons_append, ← List.append_assoc] at h
    exact .inr ⟨post', (List.append_inj' h rfl).1⟩

variable {chs : List Nat}

theorem WholeInBlocks.append_singleton {ch : Nat} : WholeInBlocks (chs ++ [ch]) ↔
    WholeInBlocks chs ∧ (chs.flatMap utf8Encode).length % stringBufSize + (utf8Encode ch).length ≤ stringBufSize := by
  constructor
  · intro h
    exact ⟨fun pre ch' post hsplit => h pre ch' (post ++ [ch]) (by rw [hsplit]; simp), h chs ch [] rfl⟩
  · rintro ⟨h, hlast⟩ pre ch' post hsplit
    rcases eq_or_of_append_singleton hsplit with ⟨rfl, rfl, -⟩ | ⟨post', hpre⟩
    · exact hlast
    · exact h pre ch' post' hpre

theorem StringMemory.InBounds.init {ch : Nat} (h : InBounds buf1 heap (chs ++ [ch])) : InBounds buf1 heap chs :=
  fun pre ch' post hsplit => h pre ch' (post ++ [ch]) (by rw [hsplit]; simp)

theorem strbufRun_holds (chs : List Nat) (h : WholeInBlocks chs) :
    ∃ s : StringBuffer, (strbufRun buf1 heap chs).Holds s ∧ s.buf = chs.flatMap utf8Encode := by
  induction chs using List.reverseRecOn with
  | nil => exact ⟨{}, StringMemory.holds_init buf1, rfl⟩
  | append_singleton chs ch ih =>
    obtain ⟨hwhole, hlast⟩ := WholeInBlocks.append_singleton.mp h
    obtain ⟨s, hs, hbuf⟩ := ih hwhole
    obtain ⟨k, hk, hle, hblock⟩ := hs.blocks
    rw [← hbuf] at hlast
    obtain ⟨s', hadd⟩ := Option.ne_none_iff_exists'.mp ((StringBuffer.addch_blocks hk hle hblock ch).mp hlast)
    obtain ⟨hs', hbuf'⟩ := @StringMemory.Holds.addch heap _ _ hs _ _ hadd
    refine ⟨s', by rw [strbufRun_append]; exact hs', ?_⟩
    rw [hbuf', hbuf, List.flatMap_append, List.flatMap_singleton]

theorem StringMemory.InBounds.whole (h : InBounds buf1 heap chs) : WholeInBlocks chs := by
  induction chs using List.reverseRecOn with
  | nil =>
    intro pre ch post hsplit
    simp at hsplit
  | append_singleton chs ch ih =>
    have hwhole := ih h.init
    refine WholeInBlocks.append_singleton.mpr ⟨hwhole, ?_⟩
    obtain ⟨s, hs, hbuf⟩ := @strbufRun_holds buf1 heap chs hwhole
    obtain ⟨k, hk, hle, hblock⟩ := hs.blocks
    rw [← hbuf]
    refine (StringBuffer.addch_blocks hk hle hblock ch).mpr fun hnone => ?_
    obtain ⟨hbegin, hover⟩ := @StringMemory.Holds.overrun heap _ _ hs _ hnone
    rw [← strbufRun_append] at hbegin hover
    exact Nat.lt_irrefl _ (h chs ch [] rfl _ (Nat.le_of_lt hbegin) hover)

theorem StringMemory.inBounds_of_whole (h : WholeInBlocks chs) : InBounds buf1 heap chs := by
  intro pre ch post hsplit i _ hi
  have hprefix : WholeInBlocks (pre ++ [ch]) := by
    intro pre' ch' post' hsplit'
    exact h pre' ch' (post' ++ post) (by rw [hsplit, ← List.singleton_append, ← List.append_assoc, hsplit']; simp)
  obtain ⟨s, hs, -⟩ := @strbufRun_holds buf1 heap _ hprefix
  obtain ⟨k, -, hle, -⟩ := hs.blocks
  rw [hs.size] at hi
  rw [hs.allocated]
  omega

/-- **The string buffer is never overrun, and holds the text, just when no character is in two blocks.** -/
theorem strbuf_inBounds_iff (buf1 : Nat → UInt8) (heap : Nat → Nat → UInt8) (chs : List Nat) :
    (StringMemory.InBounds buf1 heap chs ∧ (strbufRun buf1 heap chs).contents = chs.flatMap utf8Encode) ↔
      WholeInBlocks chs := by
  refine ⟨fun h => h.1.whole, fun h => ⟨StringMemory.inBounds_of_whole h, ?_⟩⟩
  obtain ⟨s, hs, hbuf⟩ := @strbufRun_holds buf1 heap chs h
  rw [hs.contents, hbuf]

end Run

/-- An accented letter behind 4095 letters. -/
theorem strbuf_overrun : ¬(StringMemory.InBounds (fun _ => 0) (fun _ _ => 0) (List.replicate 4095 97 ++ [0xE9]) ∧
    (strbufRun (fun _ => 0) (fun _ _ => 0) (List.replicate 4095 97 ++ [0xE9])).contents
      = (List.replicate 4095 97 ++ [0xE9]).flatMap utf8Encode) := by
  rintro ⟨h, -⟩
  have hletters : ((List.replicate 4095 97).flatMap utf8Encode).length = 4095 := by
    have hone : ∀ n : Nat, ((List.replicate n 97).flatMap utf8Encode).length = n := by
      intro n
      induction n with
      | zero => rfl
      | succ n ih =>
        rw [List.replicate_succ, List.flatMap_cons, List.length_append, ih, Nat.add_comm]
        rfl
    exact hone 4095
  have hlast := (WholeInBlocks.append_singleton.mp h.whole).2
  rw [hletters] at hlast
  exact absurd hlast (by decide)

end Qemacs
