import Qemacs.Editor.Window
import Qemacs.Script.Quote
import Qemacs.Script.Variable

/-!
# Session files

A session file is a script: `qe_save_open_files` writes a call of `find_file` for each buffer, and
`qe_save_window_layout` one of `create_window` for each window. Both print the file name between
two quotes with `%s`, where `qe_save_variables`, which writes the same file, goes through
`strquote`. So a name that has a quote, a backslash or a newline is read as something else.

It is always something else: no such name can come back by accident, whatever follows it in the
file. An escape delivers fewer bytes than it takes, so what has been delivered lags behind what
has been read (`parseStringLoop_lags`); and where the reader goes past the end of the name, it
delivers the quote there with the byte behind it, and these two occur in the name at that place
or later, but not earlier.
-/

namespace Qemacs

/-! ## The writer -/

def maxFilenameSize : Nat := 1024

/-- `ModeDef`: which one it is, and the names that `qe_find_mode` knows it by. -/
structure ModeDef where
  id : Nat
  name : List UInt8
  altName : Option (List UInt8) := none
  extensions : Option (List UInt8) := none
  deriving DecidableEq, Repr

/-- The text of a buffer: its size, `eb_get_pos`, which starts at zero, and `eb_goto_pos`, which may
have no answer. -/
structure FileText where
  totalSize : Nat
  getPos : Nat → Int × Int
  start : getPos 0 = (0, 0)
  gotoPos : Int → Int → Option Int

/-- `EditBuffer`: whether it has `BF_SYSTEM`, its file name, which fits its array, the mark and the
text. -/
structure FileBuffer where
  system : Bool
  filename : List UInt8
  fits : filename.length < maxFilenameSize
  mark : Nat
  text : FileText

/-- `EditState`. -/
structure SessionWindow extends EditWindow where
  b : FileBuffer
  wrap : Int
  offset : Nat
  offsetTop : Nat
  mode : ModeDef
  /-- It is `qs->active_window`. -/
  active : Bool

/-- The part of `QEmacsState` that a session file is about. -/
structure SessionFrame where
  buffers : List FileBuffer
  windows : List SessionWindow
  modes : List ModeDef
  width : Int
  height : Int
  statusHeight : Int

/-- A line of `qe_save_open_files`. -/
def findFileLine (b : FileBuffer) : List UInt8 :=
  asciiString "find_file(\"" ++ b.filename ++ asciiString "\");\n"

/-- `!(b1->flags & BF_SYSTEM) && *b1->filename`. -/
def FileBuffer.isSaved (b : FileBuffer) : Bool := !b.system && !b.filename.isEmpty

/-- `qe_save_open_files`. The buffer that it is written to has `BF_UTF8`: bytes are copied. -/
def qeSaveOpenFiles (qs : SessionFrame) : List UInt8 :=
  asciiString "// open files:\n" ++ (qs.buffers.filter FileBuffer.isSaved).flatMap findFileLine ++ [10]

/-- `"%d,%d"`. -/
def formatPos (pos : Int × Int) : List UInt8 := formatD pos.1 ++ 44 :: formatD pos.2

/-- A field of the layout that is written if `value` is not zero. -/
def layoutField (name : String) (value : Nat) (pos : Int × Int) : List UInt8 :=
  if value = 0 then [] else asciiString name ++ formatPos pos

/-- The coordinates, in thousandths. -/
def layoutCoords (qs : SessionFrame) (e : SessionWindow) : List Int :=
  [scale e.x1 1000 qs.width, scale e.y1 1000 (qs.height - qs.statusHeight),
    scale e.x2 1000 qs.width, scale e.y2 1000 (qs.height - qs.statusHeight)]

/-- The second argument of `create_window`. -/
def layoutString (qs : SessionFrame) (e : SessionWindow) : List UInt8 :=
  [44].intercalate ((layoutCoords qs e).map formatD) ++
    asciiString " flags:" ++ formatD (wrap32 e.flags.toNat) ++ asciiString " wrap:" ++ formatD e.wrap ++
    layoutField " offset:" e.offset (e.b.text.getPos e.offset) ++
    layoutField " mark:" e.b.mark (e.b.text.getPos e.b.mark) ++
    layoutField " top:" e.offsetTop (e.b.text.getPos e.offsetTop) ++
    (if e.active then asciiString " active:1" else []) ++ asciiString " mode:" ++ e.mode.name

/-- A line of `qe_save_window_layout`. -/
def createWindowLine (qs : SessionFrame) (e : SessionWindow) : List UInt8 :=
  asciiString "create_window(\"" ++ e.b.filename ++ asciiString "\", \"" ++ layoutString qs e ++
    asciiString "\");\n"

/-- What stands before the lines. -/
def layoutHeader : List UInt8 :=
  asciiString "// window layout:\ndelete_other_windows();\nhide_window();\n"

/-- `*e->b->filename`. -/
def SessionWindow.isSaved (e : SessionWindow) : Bool := !e.b.filename.isEmpty

def qeSaveWindowLayout (qs : SessionFrame) : List UInt8 :=
  layoutHeader ++ (qs.windows.filter SessionWindow.isSaved).flatMap (createWindowLine qs) ++
    asciiString "delete_hidden_windows();\n" ++ [10]

/-! ## Names that read back -/

/-- No byte of it means anything to the scanner. -/
def Plain (name : List UInt8) : Prop := ∀ c ∈ name, c ≠ 10 ∧ c ≠ 34 ∧ c ≠ 92

instance decidablePlain (name : List UInt8) : Decidable (Plain name) :=
  List.decidableBAll (fun c => c ≠ 10 ∧ c ≠ 34 ∧ c ≠ 92) name

variable {name : List UInt8}

theorem exists_first_special (h : ¬Plain name) :
    ∃ pre c post, name = pre ++ c :: post ∧ Plain pre ∧ (c = 10 ∨ c = 34 ∨ c = 92) := by
  induction name with
  | nil => exact absurd (by simp [Plain]) h
  | cons c name ih =>
    by_cases hc : c ≠ 10 ∧ c ≠ 34 ∧ c ≠ 92
    · obtain ⟨pre, x, post, rfl, hpre, hx⟩ := ih fun hname => h (List.forall_mem_cons.mpr ⟨hc, hname⟩)
      exact ⟨c :: pre, x, post, rfl, List.forall_mem_cons.mpr ⟨hc, hpre⟩, hx⟩
    · exact ⟨[], c, name, rfl, by simp [Plain], by simpa only [ne_eq, not_and_or, not_not] using hc⟩

/-! ## Escapes take more than they deliver -/

theorem scanOctal_lags (c : UInt8) (p rest : List UInt8) :
    ∃ q, (scanOctal c (p ++ 34 :: rest)).2 = q ++ 34 :: rest ∧ q.length ≤ p.length := by
  have hquote : ¬qeIsoctdigit 34 = true := by decide
  match p with
  | [] => exact ⟨[], by simp only [scanOctal, List.nil_append, if_neg hquote], Nat.le_refl 0⟩
  | [d] =>
    simp only [scanOctal, List.cons_append, List.nil_append]
    split
    · rw [if_neg (by rw [Bool.and_eq_true]; exact fun h => hquote h.2)]
      exact ⟨[], rfl, by simp⟩
    · exact ⟨[d], rfl, Nat.le_refl _⟩
  | d :: d' :: p =>
    simp only [scanOctal, List.cons_append]
    split
    · split
      · exact ⟨p, rfl, by simp only [List.length_cons]; omega⟩
      · exact ⟨d' :: p, rfl, by simp only [List.length_cons]; omega⟩
    · exact ⟨d :: d' :: p, rfl, Nat.le_refl _⟩

/-- A hexadecimal number takes nothing but digits, and is as long as it is large. -/
theorem scanHex_lags (rest : List UInt8) : ∀ (p : List UInt8) (maxc : Int) (ch k : Nat), ch < 16 ^ k →
    ∃ q, (scanHex (p ++ 34 :: rest) maxc ch).2 = q ++ 34 :: rest ∧ q.length ≤ p.length ∧
      (scanHex (p ++ 34 :: rest) maxc ch).1 < 16 ^ (k + (p.length - q.length)) := by
  intro p
  induction p with
  | nil =>
    intro maxc ch k hch
    have hquote : ¬(qeIsxdigit 34 = true ∧ maxc ≠ 0) := fun h => absurd h.1 (by decide)
    refine ⟨[], ?_, Nat.le_refl 0, ?_⟩
    · rw [List.nil_append, scanHex, if_neg hquote]
    · rw [List.nil_append, scanHex, if_neg hquote]
      exact hch
  | cons d p ih =>
    intro maxc ch k hch
    rw [List.cons_append, scanHex]
    split
    · rename_i hdigit
      have hd : qeDigitValue d < 16 := by simpa [qeIsxdigit] using hdigit.1
      have hnext : ((ch <<< 4) ||| qeDigitValue d) % 2 ^ 32 < 16 ^ (k + 1) := by
        refine Nat.lt_of_le_of_lt (Nat.mod_le _ _) ?_
        have hbits : ∀ j, (16 : Nat) ^ j = 2 ^ (4 * j) := fun j => (Nat.pow_mul 2 4 j).symm
        rw [hbits] at hch ⊢
        refine Nat.or_lt_two_pow ?_ ?_
        · rw [Nat.shiftLeft_eq, show 4 * (k + 1) = 4 * k + 4 by omega, Nat.pow_add]
          exact Nat.mul_lt_mul_of_pos_right hch (by decide)
        · have hpow : 2 ^ 4 ≤ 2 ^ (4 * (k + 1)) := Nat.pow_le_pow_right (by decide) (by omega)
          omega
      obtain ⟨q, hq, hlen, hlt⟩ := ih (maxc - 1) _ _ hnext
      refine ⟨q, hq, by rw [List.length_cons]; omega, ?_⟩
      rw [List.length_cons, show k + (p.length + 1 - q.length) = k + 1 + (p.length - q.length) by omega]
      exact hlt
    · refine ⟨d :: p, rfl, Nat.le_refl _, ?_⟩
      rw [Nat.sub_self]
      exact hch

theorem utf8Encode_length_of_digits {n k : Nat} (h : n < 16 ^ k) : (utf8Encode n).length ≤ k + 1 := by
  -- a number that needs so many bytes needs so many digits
  have hdigits : ∀ {j : Nat}, 16 ^ j ≤ n → j < k := fun hj =>
    (Nat.pow_lt_pow_iff_right (by decide)).mp (Nat.lt_of_le_of_lt hj h)
  unfold utf8Encode
  simp only []
  split
  · simp
  split
  · have hk := hdigits (j := 1) (by omega)
    simp only [List.length_cons, List.length_nil]
    omega
  split
  · have hk := hdigits (j := 2) (by omega)
    simp only [List.length_cons, List.length_nil]
    omega
  split
  · have hk := hdigits (j := 4) (by omega)
    simp only [List.length_cons, List.length_nil]
    omega
  split
  · have hk := hdigits (j := 5) (by omega)
    simp only [List.length_cons, List.length_nil]
    omega
  · have hk := hdigits (j := 6) (by omega)
    simp only [List.length_cons, List.length_nil]
    omega

theorem putChar_length_le (dest : List UInt8) (c : UInt8) (end_ : Nat) :
    (putChar dest c end_).length ≤ dest.length + 1 := by
  unfold putChar
  split
  · simp
  · omega

/-- **An escape stays before the quote**, and what it delivers is no longer than what it takes of
the text. The backslash and `c` have been read. -/
theorem scanEscape_lags (c : UInt8) (p rest dest : List UInt8) (end_ : Nat) :
    ∃ q, (scanEscape c (p ++ 34 :: rest) dest end_).2.2 = q ++ 34 :: rest ∧
      (scanEscape c (p ++ 34 :: rest) dest end_).2.1.length + q.length ≤ dest.length + p.length + 1 := by
  unfold scanEscape
  split
  · exact ⟨p, rfl, by simp only []; omega⟩
  split
  · obtain ⟨q, hq, hlen⟩ := scanOctal_lags c p rest
    refine ⟨q, hq, ?_⟩
    have hput := putChar_length_le dest (scanOctal c (p ++ 34 :: rest)).1 end_
    simp only []
    omega
  split
  · generalize (if c = ascii 'U' then (8 : Int) else if c = ascii 'u' then 4 else -1) = maxc
    obtain ⟨q, hq, hlen, hlt⟩ := scanHex_lags rest p maxc 0 0 (by decide)
    refine ⟨q, hq, ?_⟩
    have hbytes := utf8Encode_length_of_digits hlt
    simp only []
    split
    · rw [List.length_append]
      omega
    · omega
  · refine ⟨p, rfl, ?_⟩
    have hput := putChar_length_le dest (unescapeLetter c) end_
    simp only []
    omega

theorem scanEscape_quote (p dest : List UInt8) (end_ : Nat) :
    scanEscape 34 p dest end_ = (false, putChar dest 34 end_, p) := by
  have hletter : ¬((34 : UInt8) = ascii 'U' ∨ (34 : UInt8) = ascii 'u' ∨ (34 : UInt8) = ascii 'x') := by
    decide
  rw [scanEscape, if_neg (by decide), if_neg (by decide), if_neg hletter]
  rfl

/-! ## Reading a name -/

/-- The quote with the byte behind it is in the text, at a place before `n`. -/
def QuoteBefore (x : UInt8) (n : Nat) (text : List UInt8) : Prop :=
  ∃ j, j < n ∧ [34, x] <+: text.drop j

variable {x : UInt8}

theorem quoteBefore_append {dest out : List UInt8} (h : dest ++ [34, x] <+: out) :
    QuoteBefore x (dest.length + 1) out := by
  obtain ⟨more, rfl⟩ := h
  refine ⟨dest.length, Nat.lt_succ_self _, ?_⟩
  rw [List.append_assoc, List.drop_left]
  exact List.prefix_append _ _

theorem QuoteBefore.mono {x : UInt8} {n m : Nat} {text : List UInt8} (h : QuoteBefore x n text)
    (hle : n ≤ m) : QuoteBefore x m text :=
  h.imp fun _ hj => ⟨Nat.lt_of_lt_of_le hj.1 hle, hj.2⟩

section Reader

variable {σ : Type} [ScanHost σ]

theorem parseStringLoop_byte {triple : Bool} {c : UInt8} (hnl : c ≠ 10) (hquote : c ≠ 34)
    (hback : c ≠ 92) (end_ fuel : Nat) (ds : DataSource σ) (rest dest : List UInt8) :
    parseStringLoop triple 34 end_ (fuel + 1) ds (c :: rest) dest
      = parseStringLoop triple 34 end_ fuel ds rest (putChar dest c end_) := by
  simp only [parseStringLoop]
  rw [if_neg (fun h => hnl h.1), if_neg (fun h => hquote h.1), if_neg (fun h => hquote h.1),
    if_neg hback, if_neg hnl]

variable {rest : List UInt8} {ds : DataSource σ} {end_ : Nat}

/-- A quote that has been delivered has the byte behind it delivered too. -/
theorem parseStringLoop_past {triple : Bool} (hnl : x ≠ 10) (hquote : x ≠ 34) (hback : x ≠ 92) {fuel : Nat}
    {dest : List UInt8} {r : DataSource σ × Int × List UInt8 × List UInt8} (hroom : dest.length + 2 ≤ end_)
    (h : parseStringLoop triple 34 end_ fuel ds (x :: rest) (putChar dest 34 end_) = some r) :
    QuoteBefore x (dest.length + 1) r.2.2.2 := by
  cases fuel with
  | zero => exact absurd h (by simp [parseStringLoop])
  | succ fuel =>
    rw [parseStringLoop_byte hnl hquote hback, putChar, putChar, if_pos (by omega : dest.length < end_),
      if_pos (by rw [List.length_append, List.length_singleton]; omega), List.append_assoc] at h
    exact quoteBefore_append (parseStringLoop_keeps fuel h)

/-- **What has been delivered lags behind what has been read**, up to the end of the name; or else
the reader has gone past it. `dest` is what has been delivered before. -/
theorem parseStringLoop_lags {triple : Bool} (hnl : x ≠ 10) (hquote : x ≠ 34) (hback : x ≠ 92)
    : ∀ (fuel : Nat) {ds : DataSource σ}
    {p dest : List UInt8} {r : DataSource σ × Int × List UInt8 × List UInt8},
    dest.length + p.length + 2 ≤ end_ →
    parseStringLoop triple 34 end_ fuel ds (p ++ 34 :: x :: rest) dest = some r →
    r.2.2.2.length ≤ dest.length + p.length ∨ QuoteBefore x (dest.length + p.length + 1) r.2.2.2 := by
  intro fuel
  induction fuel with
  | zero => intro ds p dest r _ h; exact absurd h (by simp [parseStringLoop])
  | succ fuel ih =>
    intro ds p dest r hroom h
    have hstop : ∀ {y : DataSource σ} {n : Int} {q : List UInt8}, some (y, n, q, dest) = some r →
        r.2.2.2.length ≤ dest.length + p.length ∨ QuoteBefore x (dest.length + p.length + 1) r.2.2.2 := by
      intro y n q hr
      obtain rfl := Option.some.inj hr
      exact Or.inl (Nat.le_add_right _ _)
    cases p with
    | nil =>
      have hnotTriple : [34, 34].isPrefixOf (x :: rest) = false := by
        simp [List.isPrefixOf, Ne.symm hquote]
      rw [List.nil_append] at h
      simp only [parseStringLoop, hnotTriple, show ¬(34 : UInt8) = 10 by decide,
        show ¬(34 : UInt8) = 92 by decide, false_and, and_false, true_and, if_false,
        Bool.false_eq_true] at h
      split at h
      · exact hstop h
      · exact Or.inr (parseStringLoop_past hnl hquote hback (by simpa using hroom) h)
    | cons c p =>
      rw [List.length_cons] at hroom hstop ⊢
      have hnext : ∀ {ds' : DataSource σ},
          parseStringLoop triple 34 end_ fuel ds' (p ++ 34 :: x :: rest) (putChar dest c end_) = some r →
          r.2.2.2.length ≤ dest.length + (p.length + 1) ∨
            QuoteBefore x (dest.length + (p.length + 1) + 1) r.2.2.2 := by
        intro ds' h
        have hput : (putChar dest c end_).length = dest.length + 1 := by
          rw [putChar, if_pos (by omega), List.length_append, List.length_singleton]
        have hlag := ih (by omega) h
        rw [hput, Nat.add_assoc, Nat.add_comm 1] at hlag
        exact hlag
      rw [List.cons_append] at h
      simp only [parseStringLoop] at h
      split at h
      · exact hstop h
      split at h
      · exact hstop h
      split at h
      · exact hstop h
      split at h
      · cases p with
        | nil =>
          -- the backslash takes the quote
          rw [List.nil_append] at h
          simp only [scanEscape_quote, Bool.false_eq_true, if_false] at h
          exact Or.inr ((parseStringLoop_past hnl hquote hback (by omega) h).mono (by omega))
        | cons e p =>
          obtain ⟨q, hq, hlen⟩ := scanEscape_lags e p (x :: rest) dest end_
          rw [List.length_cons] at hroom
          rw [List.cons_append] at h
          simp only [] at h hq hlen
          generalize scanEscape e (p ++ 34 :: x :: rest) dest end_ = escaped at h hq hlen
          obtain ⟨newline, dest', p'⟩ := escaped
          obtain rfl : p' = q ++ 34 :: x :: rest := hq
          simp only [] at h hlen
          have hlag := ih (by omega) h
          rw [List.length_cons]
          exact hlag.imp (fun hle => by omega) fun hbefore => hbefore.mono (by omega)
      · exact hnext h

theorem parseStringLoop_plainName {fuel : Nat} :
    ∀ {name dest : List UInt8}, Plain name → dest.length + name.length ≤ end_ →
      parseStringLoop false 34 end_ (fuel + name.length) ds (name ++ rest) dest
        = parseStringLoop false 34 end_ fuel ds rest (dest ++ name) := by
  intro name
  induction name with
  | nil => intro dest _ _; rw [List.append_nil]; rfl
  | cons c name ih =>
    intro dest hplain hroom
    obtain ⟨⟨hnl, hquote, hback⟩, hname⟩ := List.forall_mem_cons.mp hplain
    rw [List.length_cons] at hroom
    rw [List.cons_append, List.length_cons, ← Nat.add_assoc,
      parseStringLoop_plain hnl hquote hback end_ _ ds _ dest (by omega),
      ih hname (by rw [List.length_append, List.length_singleton]; omega), List.append_assoc]
    rfl

/-- A name that is not plain, between simple quotes: what is delivered is shorter, or the reader has
gone past the quote. -/
theorem parseStringLoop_special (hnl : x ≠ 10) (hquote : x ≠ 34) (hback : x ≠ 92) {fuel : Nat} {p : List UInt8}
    (hp : ¬Plain p) {r : DataSource σ × Int × List UInt8 × List UInt8} (hroom : p.length + 2 ≤ end_)
    (h : parseStringLoop false 34 end_ (fuel + p.length) ds (p ++ 34 :: x :: rest) [] = some r) :
    r.2.2.2.length < p.length ∨ QuoteBefore x p.length r.2.2.2 := by
  obtain ⟨pre, c, post, rfl, hpre, hc⟩ := exists_first_special hp
  simp only [List.length_append, List.length_cons] at hroom h ⊢
  rw [show fuel + (pre.length + (post.length + 1)) = fuel + post.length + 1 + pre.length by omega,
    List.append_assoc, parseStringLoop_plainName hpre (by simp only [List.length_nil]; omega),
    List.nil_append, List.cons_append] at h
  have hstop : ∀ {y : DataSource σ} {n : Int} {q : List UInt8}, some (y, n, q, pre) = some r →
      r.2.2.2.length < pre.length + (post.length + 1) := by
    intro y n q hr
    obtain rfl := Option.some.inj hr
    simp only []
    omega
  simp only [parseStringLoop] at h
  split at h
  · exact Or.inl (hstop h)
  split at h
  · exact Or.inl (hstop h)
  split at h
  · exact Or.inl (hstop h)
  split at h
  · cases post with
    | nil =>
      rw [List.nil_append] at h
      simp only [scanEscape_quote, Bool.false_eq_true, if_false] at h
      exact Or.inr ((parseStringLoop_past hnl hquote hback (by omega) h).mono (by omega))
    | cons e post =>
      obtain ⟨q, hq, hlen⟩ := scanEscape_lags e post (x :: rest) pre end_
      rw [List.length_cons] at hroom
      rw [List.cons_append] at h
      simp only [] at h hq hlen
      generalize scanEscape e (post ++ 34 :: x :: rest) pre end_ = escaped at h hq hlen
      obtain ⟨newline, dest', p'⟩ := escaped
      obtain rfl : p' = q ++ 34 :: x :: rest := hq
      simp only [] at h hlen
      have hlag := parseStringLoop_lags hnl hquote hback _ (by omega) h
      rw [List.length_cons]
      exact hlag.imp (fun hle => by omega) fun hbefore => hbefore.mono (by omega)
  · rename_i hnotNl hnotQuote _ hnotBack
    rcases hc with rfl | rfl | rfl
    · exact absurd ⟨rfl, trivial⟩ hnotNl
    · exact absurd ⟨rfl, trivial⟩ hnotQuote
    · exact absurd rfl hnotBack

/-- The scanner, the opening quote read, finds the closing one and delivers the name. -/
def ReadsBack (ds : DataSource σ) (text name : List UInt8) : Prop :=
  ∃ (ds' : DataSource σ) (p : List UInt8), ds.parseString text 34 sizeofStr = some (ds', 0, p, name)

/-- The name up to where the quote and the byte behind it come first, the closing ones included. -/
theorem exists_first_closing (x : UInt8) (name rest : List UInt8) :
    ∃ p rest', name ++ 34 :: x :: rest = p ++ 34 :: x :: rest' ∧ p <+: name ∧ ¬QuoteBefore x p.length name := by
  induction name with
  | nil => exact ⟨[], rest, rfl, List.prefix_rfl, fun ⟨_, hj, _⟩ => Nat.not_lt_zero _ hj⟩
  | cons c name ih =>
    by_cases hhere : [34, x] <+: c :: name
    · obtain ⟨more, hmore⟩ := hhere
      refine ⟨[], more ++ 34 :: x :: rest, ?_, List.nil_prefix, fun ⟨_, hj, _⟩ => Nat.not_lt_zero _ hj⟩
      rw [← hmore]
      rfl
    · obtain ⟨p, rest', htext, hp, hnone⟩ := ih
      refine ⟨c :: p, rest', by rw [List.cons_append, List.cons_append, htext],
        (List.prefix_cons_inj c).mpr hp, ?_⟩
      rintro ⟨j, hj, hprefix⟩
      cases j with
      | zero => exact hhere hprefix
      | succ j => exact hnone ⟨j, Nat.lt_of_succ_lt_succ hj, hprefix⟩

/-- A name that starts with the rest of a triple quote does not come back. -/
theorem not_readsBack_triple (hnl : x ≠ 10) (hquote : x ≠ 34) (hback : x ≠ 92) {ds' : DataSource σ}
    {p p' : List UInt8} (hname : name.length + 2 ≤ sizeofStr - 1) (hp : p <+: name)
    (hnone : ¬QuoteBefore x p.length name) (htriple : [34, 34].isPrefixOf (p ++ 34 :: x :: rest) = true) :
    ds.parseString (p ++ 34 :: x :: rest) 34 sizeofStr ≠ some (ds', 0, p', name) := by
  intro hparse
  have hle := hp.length_le
  rw [DataSource.parseString, if_pos htriple] at hparse
  rcases p with _ | ⟨c, _ | ⟨d, p⟩⟩
  · simp [List.isPrefixOf, Ne.symm hquote] at htriple
  · -- what comes first is the byte behind the quote
    obtain rfl : 34 = c := by simpa [List.isPrefixOf] using htriple
    have hhead : ¬(x :: rest).head? = some 10 := fun h => hnl (Option.some.inj h)
    simp only [List.cons_append, List.nil_append, List.drop_succ_cons, List.drop_zero, if_neg hhead]
      at hparse
    rw [parseStringLoop_byte hnl hquote hback, putChar, if_pos (by decide)] at hparse
    have hfirst : [x] <+: name := parseStringLoop_keeps _ hparse
    obtain ⟨more, rfl⟩ := hp
    exact hquote (List.cons_prefix_cons.mp hfirst).1
  · simp only [List.cons_append, List.drop_succ_cons, List.drop_zero] at hparse
    obtain ⟨q, hq, hlen⟩ : ∃ q, (if (p ++ 34 :: x :: rest).head? = some 10
        then (p ++ 34 :: x :: rest).drop 1 else p ++ 34 :: x :: rest) = q ++ 34 :: x :: rest ∧
        q.length ≤ p.length := by
      split
      · rename_i hhead
        cases p with
        | nil => exact absurd (Option.some.inj hhead) (by decide)
        | cons e p => exact ⟨p, rfl, Nat.le_succ _⟩
      · exact ⟨p, rfl, Nat.le_refl _⟩
    rw [hq] at hparse
    simp only [List.length_cons] at hle hnone
    rcases parseStringLoop_lags hnl hquote hback _ (by simp only [List.length_nil]; omega) hparse with
      hshort | hbefore
    · simp only [List.length_nil] at hshort
      omega
    · exact hnone (hbefore.mono (by simp only [List.length_nil]; omega))

/-- **A name reads back exactly when it is plain**, whatever follows the quote and the byte behind
it. -/
theorem readsBack_iff (ds : DataSource σ) (hnl : x ≠ 10) (hquote : x ≠ 34) (hback : x ≠ 92)
    (hname : name.length < maxFilenameSize) (rest : List UInt8)
    : ReadsBack ds (name ++ 34 :: x :: rest) name ↔ Plain name := by
  have hroom : name.length + 2 ≤ sizeofStr - 1 := by
    rw [maxFilenameSize] at hname
    rw [sizeofStr]
    omega
  constructor
  · rintro ⟨ds', p', hparse⟩
    by_contra hplain
    obtain ⟨p, rest', htext, hp, hnone⟩ := exists_first_closing x name rest
    have hle := hp.length_le
    rw [htext] at hparse
    by_cases htriple : [34, 34].isPrefixOf (p ++ 34 :: x :: rest') = true
    · exact not_readsBack_triple hnl hquote hback hroom hp hnone htriple hparse
    · rw [DataSource.parseString, if_neg htriple,
        show (p ++ 34 :: x :: rest').length + 1 = rest'.length + 2 + 1 + p.length by
          simp only [List.length_append, List.length_cons]; omega] at hparse
      by_cases hpp : Plain p
      · rw [parseStringLoop_plainName hpp (by simp only [List.length_nil]; omega)] at hparse
        have hsame : p = name := by simpa [parseStringLoop] using congrArg (Option.map (·.2.2.2)) hparse
        exact hplain (hsame ▸ hpp)
      · rcases parseStringLoop_special hnl hquote hback hpp (by omega) hparse with hlt | hbefore
        · exact absurd hle (Nat.not_le.mpr hlt)
        · exact hnone hbefore
  · intro hplain
    have hnotTriple : ¬[34, 34].isPrefixOf (name ++ 34 :: x :: rest) = true := by
      cases name with
      | nil => simp [List.isPrefixOf, Ne.symm hquote]
      | cons c name => simp [List.isPrefixOf, Ne.symm (List.forall_mem_cons.mp hplain).1.2.1]
    refine ⟨ds, x :: rest, ?_⟩
    rw [DataSource.parseString, if_neg hnotTriple,
      show (name ++ 34 :: x :: rest).length + 1 = rest.length + 2 + 1 + name.length by
        simp only [List.length_append, List.length_cons]; omega,
      parseStringLoop_plainName hplain (by simp only [List.length_nil]; omega)]
    rfl

/-- **Which names a session file keeps**: what stands behind the opening quote of a line of
`qe_save_open_files` or of `qe_save_window_layout` reads back as the file name exactly when that is
plain. `rest` is what follows in the file. -/
theorem sessionNames_readBack_iff (qs : SessionFrame) (ds : DataSource σ) (rest : List UInt8) :
    (∀ (before : List FileBuffer) (b : FileBuffer) (after : List FileBuffer),
      qs.buffers.filter FileBuffer.isSaved = before ++ b :: after →
      ∃ text, qeSaveOpenFiles qs ++ rest = asciiString "// open files:\n" ++ before.flatMap findFileLine ++
          (asciiString "find_file(\"" ++ text) ∧
        (ReadsBack ds text b.filename ↔ Plain b.filename)) ∧
    ∀ (before : List SessionWindow) (e : SessionWindow) (after : List SessionWindow),
      qs.windows.filter SessionWindow.isSaved = before ++ e :: after →
      ∃ text, qeSaveWindowLayout qs ++ rest = layoutHeader ++ before.flatMap (createWindowLine qs) ++
          (asciiString "create_window(\"" ++ text) ∧
        (ReadsBack ds text e.b.filename ↔ Plain e.b.filename) := by
  constructor
  · intro before b after hsplit
    refine ⟨b.filename ++ 34 :: 41 :: (asciiString ";\n" ++ after.flatMap findFileLine ++ [10] ++ rest),
      ?_, readsBack_iff ds (by decide) (by decide) (by decide) b.fits _⟩
    have hend : asciiString "\");\n" = 34 :: 41 :: asciiString ";\n" := by decide
    rw [qeSaveOpenFiles, hsplit, List.flatMap_append, List.flatMap_cons]
    simp only [findFileLine, hend, List.append_assoc, List.cons_append]
  · intro before e after hsplit
    refine ⟨e.b.filename ++ 34 :: 44 :: (asciiString " \"" ++ layoutString qs e ++ asciiString "\");\n" ++
        after.flatMap (createWindowLine qs) ++ asciiString "delete_hidden_windows();\n" ++ [10] ++ rest),
      ?_, readsBack_iff ds (by decide) (by decide) (by decide) e.b.fits _⟩
    have hend : asciiString "\", \"" = 34 :: 44 :: asciiString " \"" := by decide
    rw [qeSaveWindowLayout, hsplit, List.flatMap_append, List.flatMap_cons]
    simp only [createWindowLine, hend, List.append_assoc, List.cons_append]

end Reader

/-- A buffer on a file, with no text. -/
def fileBuffer (filename : List UInt8) (fits : filename.length < maxFilenameSize) : FileBuffer where
  system := false
  filename := filename
  fits := fits
  mark := 0
  text := ⟨0, fun _ => (0, 0), rfl, fun _ _ => some 0⟩

/-- A session with this buffer and no window. -/
def sessionOf (b : FileBuffer) : SessionFrame where
  buffers := [b]
  windows := []
  modes := []
  width := 80
  height := 25
  statusHeight := 1

/-- A name with a space and a single quote. -/
theorem sessionNames_readBack_plain :
    ∃ text, qeSaveOpenFiles (sessionOf (fileBuffer (asciiString "it's a") (by decide))) ++ []
        = asciiString "// open files:\n" ++ [].flatMap findFileLine ++ (asciiString "find_file(\"" ++ text) ∧
      (ReadsBack (DataSource.init ()) text (asciiString "it's a") ↔ Plain (asciiString "it's a")) :=
  (sessionNames_readBack_iff (sessionOf (fileBuffer (asciiString "it's a") (by decide)))
    (DataSource.init ()) []).1 [] (fileBuffer (asciiString "it's a") (by decide)) [] rfl

/-- A backslash in a name is read as the beginning of an escape. -/
theorem sessionNames_backslash :
    qeSaveOpenFiles (sessionOf (fileBuffer (asciiString "a\\b") (by decide)))
        = asciiString "// open files:\nfind_file(\"" ++ asciiString "a\\b\");\n\n" ∧
      ((DataSource.init ()).parseString (asciiString "a\\b\");\n\n") 34 sizeofStr).map (fun r => r.2)
        = some (0, asciiString ");\n\n", [ascii 'a', 8]) ∧
      ¬ReadsBack (DataSource.init ()) (asciiString "a\\b\");\n\n") (asciiString "a\\b") := by
  have hread : ((DataSource.init ()).parseString (asciiString "a\\b\");\n\n") 34 sizeofStr).map
      (fun r => r.2) = some (0, asciiString ");\n\n", [ascii 'a', 8]) := by decide
  refine ⟨by decide, hread, ?_⟩
  rintro ⟨ds', p, h⟩
  rw [h] at hread
  have hname : asciiString "a\\b" = [ascii 'a', 8] :=
    congrArg (fun r => r.2.2) (Option.some.inj hread)
  exact absurd hname (by decide)

end Qemacs
