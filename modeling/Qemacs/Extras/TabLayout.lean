import Qemacs.Extras.TabRegion

/-!
# The layout under the conversion of TABs

`do_tabify` and `do_untabify` over a whole buffer keep the layout: every other character stays in its line and in its
column. What they do is described by one relation between the characters before and after (`Reblanked`): blanks are
replaced by blanks that end in the same column. It keeps the layout, and what `do_untabify` makes of a text depends on
the text only up to it.

Spaces that `do_tabify` has replaced come back as the bytes that the charset writes for a space. That is what they
were before, but for spaces that are written in another way, in more bytes than UTF-8 needs or as a unit that the end
of the text cuts.
-/

namespace Qemacs

open Lib

/-! ## Columns -/

section Arithmetic

variable {tw col : Int}

theorem lt_nextTab (htw : 0 < tw) : col < nextTab tw col := by
  have hmod := Int.tmod_lt_of_pos col htw
  rw [nextTab]
  omega

theorem tmod_succ (htw : 0 < tw) (hcol : 0 ≤ col) : (col + 1).tmod tw = 0 ∧ col.tmod tw = tw - 1 ∨
    (col + 1).tmod tw = col.tmod tw + 1 := by
  rw [Int.tmod_eq_emod_of_nonneg hcol, Int.tmod_eq_emod_of_nonneg (by omega)]
  have hlt := Int.emod_lt_of_pos col htw
  have hge := Int.emod_nonneg col (by omega : tw ≠ 0)
  have hadd : (col + 1) % tw = (col % tw + 1) % tw := by rw [Int.emod_add_emod]
  by_cases hlast : col % tw = tw - 1
  · left
    rw [hadd, hlast, Int.sub_add_cancel, Int.emod_self]
    exact ⟨rfl, rfl⟩
  · right
    rw [hadd, Int.emod_eq_of_lt (by omega) (by omega)]

/-- The tab stop behind a column is the next column, or the tab stop behind that. -/
theorem nextTab_full (htw : 0 < tw) (hcol : 0 ≤ col) (h : (col + 1).tmod tw = 0) : nextTab tw col = col + 1 := by
  rcases tmod_succ htw hcol with ⟨-, hlast⟩ | hsucc
  · rw [nextTab, hlast]
    omega
  · have := Int.tmod_nonneg tw hcol
    omega

theorem nextTab_succ (htw : 0 < tw) (hcol : 0 ≤ col) (h : (col + 1).tmod tw ≠ 0) :
    nextTab tw (col + 1) = nextTab tw col := by
  rcases tmod_succ htw hcol with ⟨hzero, -⟩ | hsucc
  · exact absurd hzero h
  · rw [nextTab, nextTab, hsucc]
    omega

theorem nextTab_stop (h : col.tmod tw = 0) : nextTab tw col = col + tw := by
  rw [nextTab, h]
  omega

theorem nextTab_tmod (hcol : 0 ≤ col) : (nextTab tw col).tmod tw = 0 := by
  have hsplit : nextTab tw col = tw * (col / tw + 1) := by
    have := Int.emod_add_mul_ediv col tw
    rw [nextTab, Int.tmod_eq_emod_of_nonneg hcol, Int.mul_add, Int.mul_one]
    omega
  rw [hsplit, Int.mul_tmod_right]

end Arithmetic

def columnAfter (table : Nat → Nat) (tw col : Int) (c : Nat) : Int :=
  if c = 13 ∨ c = 10 then 0 else if c = 9 then nextTab tw col else col + qeWcwidth table c

/-- The column behind some characters. -/
def columnsAfter (table : Nat → Nat) (tw col : Int) (ps : List CharPiece) : Int :=
  ps.foldl (fun col q => columnAfter table tw col q.ch) col

@[simp] theorem columnsAfter_nil (table : Nat → Nat) (tw col : Int) : columnsAfter table tw col [] = col := rfl

@[simp] theorem columnsAfter_cons (table : Nat → Nat) (tw col : Int) (q : CharPiece) (ps : List CharPiece) :
    columnsAfter table tw col (q :: ps) = columnsAfter table tw (columnAfter table tw col q.ch) ps := rfl

theorem columnsAfter_append (table : Nat → Nat) (tw col : Int) (ps qs : List CharPiece) :
    columnsAfter table tw col (ps ++ qs) = columnsAfter table tw (columnsAfter table tw col ps) qs :=
  List.foldl_append

def CharPiece.IsBlank (q : CharPiece) : Prop := q.ch = 9 ∨ q.ch = 32

theorem columnAfter_blank {table : Nat → Nat} {tw col : Int} {q : CharPiece} (hq : q.IsBlank) :
    columnAfter table tw col q.ch = if q.ch = 9 then nextTab tw col else col + 1 := by
  rcases hq with hq | hq
  · rw [hq, columnAfter, if_neg (by decide), if_pos rfl, if_pos rfl]
  · rw [hq, columnAfter, if_neg (by decide), TabParams.qeWcwidth_space]
    rfl

theorem lt_columnAfter_blank {table : Nat → Nat} {tw col : Int} (htw : 0 < tw) {q : CharPiece} (hq : q.IsBlank) :
    col < columnAfter table tw col q.ch := by
  rw [columnAfter_blank hq]
  split
  · exact lt_nextTab htw
  · omega

/-! ## What the layout is -/

/-- The characters that are not blank, each with its line and its column, as `text_screen_width` counts from the
beginning of the line. -/
def CharReader.inked (v : CharReader) (wcwidth : Nat → Nat) (tw : Int) :
    Nat → Nat → Int → Int → List (Nat × Nat × Option Int)
  | 0, _, _, _ => []
  | fuel + 1, line, bol, offset =>
      if offset < v.totalSize then
        let r := v.nextc offset
        let rest := if r.1 = 10 then v.inked wcwidth tw fuel (line + 1) r.2 r.2
          else v.inked wcwidth tw fuel line bol r.2
        if r.1 = 9 ∨ r.1 = 32 then rest else (r.1, line, v.textScreenWidth wcwidth bol offset tw) :: rest
      else []

def CharReader.layout (v : CharReader) (wcwidth : Nat → Nat) (tw : Int) : List (Nat × Nat × Option Int) :=
  v.inked wcwidth tw v.totalSize 0 0 0

/-- The characters from an offset on. -/
def CharReader.charsFrom (v : CharReader) : Nat → Int → List Nat
  | 0, _ => []
  | fuel + 1, offset =>
      if offset < v.totalSize then (v.nextc offset).1 :: v.charsFrom fuel (v.nextc offset).2 else []

def CharReader.chars (v : CharReader) : List Nat := v.charsFrom v.totalSize 0

def inkOf (table : Nat → Nat) (tw : Int) : Nat → Int → List CharPiece → List (Nat × Nat × Option Int)
  | _, _, [] => []
  | line, col, q :: ps =>
      let rest := inkOf table tw (if q.ch = 10 then line + 1 else line) (columnAfter table tw col q.ch) ps
      if q.ch = 9 ∨ q.ch = 32 then rest else (q.ch, line, some col) :: rest

/-- From `bol` on the characters before `o` are counted in some turns, and the column is `col` then. -/
def CharReader.Counts (v : CharReader) (wcwidth : Nat → Nat) (tw : Int) (bol o : Nat) (col : Int) : Prop :=
  ∃ k, k ≤ o - bol ∧ bol ≤ o ∧ ∀ (stop : Int) (fuel : Nat), o ≤ stop →
    v.screenWidthLoop wcwidth stop tw (fuel + k) bol 0 = v.screenWidthLoop wcwidth stop tw fuel o col

section Layout

variable {v : CharReader} {table : Nat → Nat} {tw : Int}

theorem Counts.refl (bol : Nat) : v.Counts (qeWcwidth table) tw bol bol 0 :=
  ⟨0, Nat.zero_le _, Nat.le_refl _, fun _ _ _ => rfl⟩

theorem Counts.next (htw : 0 < tw) {bol o e c : Nat} {col : Int} (h : v.Counts (qeWcwidth table) tw bol o col)
    (hread : v.nextc o = (c, (e : Int))) (he : o < e) :
    v.Counts (qeWcwidth table) tw bol e (columnAfter table tw col c) := by
  obtain ⟨k, hk, hle, hloop⟩ := h
  refine ⟨k + 1, by omega, by omega, fun stop fuel hstop => ?_⟩
  rw [show fuel + (k + 1) = fuel + 1 + k by omega, hloop stop (fuel + 1) (by omega), CharReader.screenWidthLoop,
    if_pos (by omega)]
  simp only [hread, columnAfter]
  split
  · rfl
  · split
    · rw [remInt, if_neg (by omega), Option.bind_some]
      rfl
    · rfl

theorem Counts.width {bol o : Nat} {col : Int} (h : v.Counts (qeWcwidth table) tw bol o col)
    (ho : o ≤ v.totalSize) : v.textScreenWidth (qeWcwidth table) bol o tw = some col := by
  obtain ⟨k, hk, hle, hloop⟩ := h
  have hrun := hloop o (v.totalSize + 2 - k) (Int.le_refl _)
  rw [Nat.sub_add_cancel (by omega), show v.totalSize + 2 - k = v.totalSize + 1 - k + 1 by omega] at hrun
  rw [CharReader.textScreenWidth, hrun, CharReader.screenWidthLoop, if_neg (by omega)]

end Layout

namespace DecodeStateC

variable {s : DecodeStateC} {mem : Uninit} {table : Nat → Nat} {tw : Int}

/-- **The layout of a text is the layout of its characters.** -/
theorem ReadsAs.inked (htw : 0 < tw) {text : List UInt8} : ∀ {ps : List CharPiece} {fuel line bol o : Nat} {col : Int},
    s.ReadsAs mem ps → text.drop o = textOf ps → text.length - o ≤ fuel →
    (s.reader mem text).Counts (qeWcwidth table) tw bol o col →
    (s.reader mem text).inked (qeWcwidth table) tw fuel line bol o = inkOf table tw line col ps := by
  intro ps fuel
  induction fuel generalizing ps with
  | zero =>
    intro line bol o col hps hdrop hfuel hcounts
    obtain rfl := hps.eq_nil (by rw [← hdrop, List.drop_eq_nil_of_le (by omega)])
    rfl
  | succ fuel ih =>
    intro line bol o col hps hdrop hfuel hcounts
    rw [CharReader.inked]
    rcases Nat.lt_or_ge o text.length with hlt | hge
    · cases ps with
      | nil =>
        have hlen := congrArg List.length hdrop
        rw [List.length_drop, textOf_nil, List.length_nil] at hlen
        omega
      | cons q ps =>
        obtain ⟨e, hread, he, hrest, -⟩ := hps.nextc hlt.le hdrop
        have hnext := Counts.next htw hcounts hread he
        rw [if_pos (by rw [reader_totalSize]; omega), inkOf]
        simp only [hread, Counts.width hcounts (by rw [reader_totalSize]; omega)]
        by_cases hline : q.ch = 10
        · have hzero : columnAfter table tw col q.ch = 0 := if_pos (.inr hline)
          rw [if_pos hline, if_pos hline, hzero, ih hps.tail hrest (by omega) (Counts.refl e)]
        · rw [if_neg hline, if_neg hline, ih hps.tail hrest (by omega) hnext]
    · obtain rfl := hps.eq_nil (by rw [← hdrop, List.drop_eq_nil_of_le hge])
      rw [if_neg (by rw [reader_totalSize]; omega)]
      rfl

theorem ReadsAs.charsFrom {text : List UInt8} : ∀ {ps : List CharPiece} {fuel o : Nat},
    s.ReadsAs mem ps → text.drop o = textOf ps → text.length - o ≤ fuel →
    (s.reader mem text).charsFrom fuel o = ps.map CharPiece.ch := by
  intro ps fuel
  induction fuel generalizing ps with
  | zero =>
    intro o hps hdrop hfuel
    obtain rfl := hps.eq_nil (by rw [← hdrop, List.drop_eq_nil_of_le (by omega)])
    rfl
  | succ fuel ih =>
    intro o hps hdrop hfuel
    rw [CharReader.charsFrom]
    rcases Nat.lt_or_ge o text.length with hlt | hge
    · cases ps with
      | nil =>
        have hlen := congrArg List.length hdrop
        rw [List.length_drop, textOf_nil, List.length_nil] at hlen
        omega
      | cons q ps =>
        obtain ⟨e, hread, he, hrest, -⟩ := hps.nextc hlt.le hdrop
        rw [if_pos (by rw [reader_totalSize]; omega), hread, ih hps.tail hrest (by omega)]
        rfl
    · obtain rfl := hps.eq_nil (by rw [← hdrop, List.drop_eq_nil_of_le hge])
      rw [if_neg (by rw [reader_totalSize]; omega)]
      rfl

theorem ReadsAs.layout (htw : 0 < tw) {ps : List CharPiece} (h : s.ReadsAs mem ps) :
    (s.reader mem (textOf ps)).layout (qeWcwidth table) tw = inkOf table tw 0 0 ps :=
  h.inked htw rfl (Nat.le_refl _) (Counts.refl 0)

theorem ReadsAs.chars {ps : List CharPiece} (h : s.ReadsAs mem ps) :
    (s.reader mem (textOf ps)).chars = ps.map CharPiece.ch :=
  h.charsFrom rfl (Nat.le_refl _)

end DecodeStateC

/-! ## Blanks for blanks -/

def CharsetC.piece (charset : CharsetC) (c : Nat) : CharPiece := ⟨c, charset.blank c⟩

/-- Blanks become blanks that end in the same column. Those that are new are written by the charset. -/
inductive Reblanked (charset : CharsetC) (table : Nat → Nat) (tw : Int) : Int → List CharPiece → List CharPiece → Prop
  | nil {col : Int} : Reblanked charset table tw col [] []
  | keep {col : Int} {q : CharPiece} {ps ps' : List CharPiece} :
      Reblanked charset table tw (columnAfter table tw col q.ch) ps ps' →
      Reblanked charset table tw col (q :: ps) (q :: ps')
  | written {col : Int} {bs new ps ps' : List CharPiece} : bs ≠ [] → new ≠ [] → (∀ q ∈ bs, q.IsBlank) →
      (∀ q ∈ new, q.IsBlank ∧ q = charset.piece q.ch) →
      columnsAfter table tw col new = columnsAfter table tw col bs →
      Reblanked charset table tw (columnsAfter table tw col bs) ps ps' →
      Reblanked charset table tw col (bs ++ ps) (new ++ ps')
  | absorbed {col : Int} {bs : List CharPiece} {q : CharPiece} {ps ps' : List CharPiece} : (∀ r ∈ bs, r.IsBlank) →
      q.ch = 9 → nextTab tw (columnsAfter table tw col bs) = nextTab tw col →
      Reblanked charset table tw (nextTab tw col) ps ps' →
      Reblanked charset table tw col (bs ++ q :: ps) (q :: ps')

/-- The TABs of some characters as spaces. -/
def expandTabs (charset : CharsetC) (table : Nat → Nat) (tw : Int) : Int → List CharPiece → List CharPiece
  | _, [] => []
  | col, q :: ps =>
      if q.ch = 9 then List.replicate (nextTab tw col - col).toNat (charset.piece 32)
        ++ expandTabs charset table tw (nextTab tw col) ps
      else q :: expandTabs charset table tw (columnAfter table tw col q.ch) ps

/-- A space as the charset writes it. -/
def CharsetC.rewriteSpace (charset : CharsetC) (q : CharPiece) : CharPiece :=
  if q.ch = 32 then charset.piece 32 else q

theorem CharsetC.rewriteSpace_ch (charset : CharsetC) (q : CharPiece) : (charset.rewriteSpace q).ch = q.ch := by
  rw [rewriteSpace]
  split
  · rename_i h
    rw [h]
    rfl
  · rfl

section Blanks

variable {charset : CharsetC} {table : Nat → Nat} {tw : Int}

theorem inkOf_blanks {bs : List CharPiece} (hbs : ∀ q ∈ bs, q.IsBlank) (line : Nat) (col : Int) (ps : List CharPiece) :
    inkOf table tw line col (bs ++ ps) = inkOf table tw line (columnsAfter table tw col bs) ps := by
  induction bs generalizing col with
  | nil => rfl
  | cons q bs ih =>
    have hq := hbs q List.mem_cons_self
    have hline : q.ch ≠ 10 := by
      rcases hq with hq | hq <;> omega
    rw [List.cons_append, inkOf, if_neg hline, ih fun r hr => hbs r (List.mem_cons_of_mem _ hr)]
    exact if_pos hq

/-- **Blanks that end in the same column keep the layout.** -/
theorem Reblanked.inkOf_eq {col : Int} {ps ps' : List CharPiece} (h : Reblanked charset table tw col ps ps')
    (line : Nat) : inkOf table tw line col ps' = inkOf table tw line col ps := by
  induction h generalizing line with
  | nil => rfl
  | keep _ ih => rw [inkOf, inkOf, ih]
  | written _ _ hbs hnew hcol _ ih =>
    rw [inkOf_blanks hbs, inkOf_blanks fun q hq => (hnew q hq).1, hcol, ih]
  | @absorbed col bs q ps ps' hbs hq hcol _ ih =>
    have hafter : ∀ col, columnAfter table tw col q.ch = nextTab tw col := fun col => by
      rw [columnAfter_blank (.inl hq), if_pos hq]
    have hline : q.ch ≠ 10 := by omega
    rw [inkOf_blanks hbs, inkOf, inkOf, hafter, hafter, hcol, if_neg hline, ih]
    simp only [if_pos (show q.ch = 9 ∨ q.ch = 32 from .inl hq)]

theorem le_columnsAfter_blanks (htw : 0 < tw) {bs : List CharPiece} (hbs : ∀ q ∈ bs, q.IsBlank) (col : Int) :
    col ≤ columnsAfter table tw col bs := by
  induction bs generalizing col with
  | nil => exact Int.le_refl _
  | cons q bs ih =>
    have hq := @lt_columnAfter_blank table _ col htw _ (hbs q List.mem_cons_self)
    exact Int.le_trans hq.le (ih (fun r hr => hbs r (List.mem_cons_of_mem _ hr)) _)

theorem expandTabs_blanks (htw : 0 < tw) {bs : List CharPiece} (hbs : ∀ q ∈ bs, q.IsBlank) (col : Int)
    (ps : List CharPiece) : (expandTabs charset table tw col (bs ++ ps)).map charset.rewriteSpace
      = List.replicate (columnsAfter table tw col bs - col).toNat (charset.piece 32)
        ++ (expandTabs charset table tw (columnsAfter table tw col bs) ps).map charset.rewriteSpace := by
  induction bs generalizing col with
  | nil => simp
  | cons q bs ih =>
    have hq := hbs q List.mem_cons_self
    have hrest : ∀ r ∈ bs, r.IsBlank := fun r hr => hbs r (List.mem_cons_of_mem _ hr)
    have hlt := @lt_columnAfter_blank table _ col htw _ hq
    have hle := @le_columnsAfter_blanks table _ htw _ hrest (columnAfter table tw col q.ch)
    have hsplit : (columnsAfter table tw col (q :: bs) - col).toNat = (columnAfter table tw col q.ch - col).toNat
        + (columnsAfter table tw (columnAfter table tw col q.ch) bs - columnAfter table tw col q.ch).toNat := by
      rw [columnsAfter_cons]
      omega
    rw [List.cons_append, expandTabs, hsplit, List.replicate_add, List.append_assoc, columnsAfter_cons, ← ih hrest]
    have hafter := @columnAfter_blank table tw col _ hq
    by_cases htab : q.ch = 9
    · rw [if_pos htab] at hafter
      rw [if_pos htab, hafter, List.map_append, List.map_replicate]
      rfl
    · rw [if_neg htab] at hafter
      have hspace : q.ch = 32 := hq.resolve_left htab
      rw [if_neg htab, List.map_cons, hafter, show col + 1 - col = 1 by omega, CharsetC.rewriteSpace,
        if_pos hspace]
      rfl

/-- **What `do_untabify` makes of a text is the same for texts with the same layout of blanks.** -/
theorem Reblanked.expandTabs_eq (htw : 0 < tw) {col : Int} {ps ps' : List CharPiece}
    (h : Reblanked charset table tw col ps ps') :
    (expandTabs charset table tw col ps').map charset.rewriteSpace
      = (expandTabs charset table tw col ps).map charset.rewriteSpace := by
  induction h with
  | nil => rfl
  | @keep col q ps ps' _ ih =>
    by_cases htab : q.ch = 9
    · have hafter : columnAfter table tw col q.ch = nextTab tw col := by
        rw [columnAfter_blank (.inl htab), if_pos htab]
      rw [expandTabs, expandTabs, if_pos htab, if_pos htab, List.map_append, List.map_append, ← hafter, ih]
    · rw [expandTabs, expandTabs, if_neg htab, if_neg htab, List.map_cons, List.map_cons, ih]
  | written _ _ hbs hnew hcol _ ih =>
    rw [expandTabs_blanks htw hbs, expandTabs_blanks htw fun q hq => (hnew q hq).1, hcol, ih]
  | @absorbed col bs q ps ps' hbs hq hcol _ ih =>
    have hafter : ∀ col, columnsAfter table tw col [q] = nextTab tw col := fun col => by
      rw [columnsAfter_cons, columnsAfter_nil, columnAfter_blank (.inl hq), if_pos hq]
    have hone : ∀ r ∈ [q], r.IsBlank := fun r hr => List.mem_singleton.mp hr ▸ .inl hq
    have hall : ∀ r ∈ bs ++ [q], r.IsBlank := fun r hr => (List.mem_append.mp hr).elim (hbs r) (hone r)
    have hold := @expandTabs_blanks charset table _ htw _ hall col ps
    have hnew := @expandTabs_blanks charset table _ htw _ hone col ps'
    rw [columnsAfter_append, hafter, hcol, List.append_assoc, List.singleton_append] at hold
    rw [hafter, List.singleton_append] at hnew
    rw [hold, hnew, ih]

theorem expandTabs_reblanked (htw : 0 < tw) (col : Int) (ps : List CharPiece) :
    Reblanked charset table tw col ps (expandTabs charset table tw col ps) := by
  induction ps generalizing col with
  | nil => exact .nil
  | cons q ps ih =>
    rw [expandTabs]
    split
    · rename_i htab
      have hspaces : ∀ (n : Nat) (col : Int),
          columnsAfter table tw col (List.replicate n (charset.piece 32)) = col + n := by
        intro n
        induction n with
        | zero => intro col; simp
        | succ n ih =>
          intro col
          rw [List.replicate_succ, columnsAfter_cons, columnAfter_blank (.inr rfl),
            if_neg (show ¬(charset.piece 32).ch = 9 from (by decide : (32 : Nat) ≠ 9)), ih]
          push_cast
          omega
      have hlt := @lt_nextTab _ col htw
      have hafter : columnsAfter table tw col [q] = nextTab tw col := by
        rw [columnsAfter_cons, columnsAfter_nil, columnAfter_blank (.inl htab), if_pos htab]
      refine @Reblanked.written _ _ _ _ [q] _ _ _ (by simp) ?_ (by simp [CharPiece.IsBlank, htab]) ?_ ?_ ?_
      · rw [Ne, List.replicate_eq_nil_iff]
        omega
      · intro r hr
        rw [(List.mem_replicate.mp hr).2]
        exact ⟨.inr rfl, rfl⟩
      · rw [hspaces, hafter]
        omega
      · rw [hafter]
        exact ih _
    · exact .keep (ih _)

theorem expandTabs_no_tab (col : Int) (ps : List CharPiece) :
    9 ∉ (expandTabs charset table tw col ps).map CharPiece.ch := by
  induction ps generalizing col with
  | nil => exact List.not_mem_nil
  | cons q ps ih =>
    rw [expandTabs]
    split
    · rw [List.map_append, List.map_replicate, List.mem_append, List.mem_replicate]
      exact not_or.mpr ⟨fun h => absurd h.2 (by decide : (9 : Nat) ≠ 32), ih _⟩
    · rename_i htab
      rw [List.map_cons, List.mem_cons]
      exact not_or.mpr ⟨fun h => htab h.symm, ih _⟩

end Blanks

/-! ## The text with other blanks -/

/-- A charset reads a TAB and a space where it has written one. Only a table could be without them. -/
def CharsetC.ReadsBlanks : CharsetC → Prop
  | table8bit t => ∀ c, c = 9 ∨ c = 32 → ∃ byte, encode8bit t c = some [byte] ∧ t.record.table byte = c
  | narrow _ | ucs2le | ucs2be | ucs4le | ucs4be => True

section Reading

variable {s : DecodeStateC} {mem : Uninit} {table : Nat → Nat} {tw : Int}

theorem nextc_written (heol : s.eolType = .unix) (hblanks : s.charset.ReadsBlanks) {c : Nat} (hc : c = 9 ∨ c = 32)
    (rest : List UInt8) : (s.reader mem (s.charset.blank c ++ rest)).nextc 0
      = (c, ((s.charset.blank c).length : Int)) := by
  have hbyte : s.charset.Is8bit → ∀ byte, s.charset.blank c = [byte] → s.charset.record.table byte = c →
      (s.reader mem (s.charset.blank c ++ rest)).nextc 0 = (c, ((s.charset.blank c).length : Int)) := by
    intro h8 byte hblank htable
    rw [hblank]
    have hrun := @DecodeStateC.nextc_8bit s mem h8 heol (byte :: rest) _ 0 _ rfl
    rw [htable] at hrun
    exact DecodeStateC.reader_nextc_eq hrun
  have hwide : ∀ {be : Bool}, s.charset.bigEndian = some be → (∀ x, s.charset.record.decodeFunc (s.charset.blank c ++ x)
      = some (c, (s.charset.blank c).length)) → (s.charset.blank c).length = s.charset.charSize →
      (s.reader mem (s.charset.blank c ++ rest)).nextc 0 = (c, ((s.charset.blank c).length : Int)) := by
    intro be hbe hdecode hsize
    obtain ⟨ch, hch, hread⟩ := @DecodeStateC.nextc_unit_unix _ mem _ hbe heol (s.charset.blank c ++ rest)
      (by
        have := (s.charset.length_blank hc).1
        intro h
        rw [(List.append_eq_nil_iff.mp h).1] at this
        exact absurd this (by decide))
    obtain ⟨x, hx⟩ := @DecodeStateC.padded_append (s.charset.blank c) rest (s.charset.length_blank hc).2.le
    rw [hx, hdecode, Option.some.injEq, Prod.mk.injEq] at hch
    rw [hread, hsize, hch.1]
  rcases s with ⟨charset, eolType⟩
  cases charset with
  | narrow charset =>
    cases charset with
    | utf8 | utf8x =>
      rcases hc with rfl | rfl
      · exact DecodeStateC.nextc_utf8 (s := ⟨_, eolType⟩) (by simp [CharsetC.HasUtf8, QECharset.HasUtf8]) heol
          (Utf8Char.ascii (c := 9) (by decide))
      · exact DecodeStateC.nextc_utf8 (s := ⟨_, eolType⟩) (by simp [CharsetC.HasUtf8, QECharset.HasUtf8]) heol
          (Utf8Char.ascii (c := 32) (by decide))
    | raw | iso8859_1 | vt100 | ascii7bit | macRoman =>
      rcases hc with rfl | rfl
      · exact hbyte trivial 9 rfl rfl
      · exact hbyte trivial 32 rfl rfl
  | table8bit t =>
    obtain ⟨byte, henc, htable⟩ := hblanks c hc
    exact hbyte trivial byte (by rw [CharsetC.blank]; exact (congrArg (Option.getD · [63]) henc : _)) htable
  | ucs2le | ucs2be | ucs4le | ucs4be => rcases hc with rfl | rfl <;> exact hwide rfl (fun _ => rfl) rfl

variable {ps : List CharPiece}

theorem trailing_blank (hutf8 : s.charset.HasUtf8) (heol : s.eolType = .unix) {q : CharPiece}
    (h : s.ReadsAs mem (q :: ps)) (hq : q.IsBlank) : trailing (textOf (q :: ps)) = [] := by
  cases h with
  | @cons q ps n hne hread =>
    obtain ⟨c, rest, hbytes⟩ : ∃ c rest, textOf (q :: ps) = c :: rest :=
      List.exists_cons_of_ne_nil fun h => hne (List.append_eq_nil_iff.mp h).1
    rw [hbytes] at hread ⊢
    have hnot : utf8IsTrailingByte c = false := by
      by_contra htrail
      have hstray := @DecodeStateC.nextc_utf8 _ mem hutf8 heol _ _ _
        (@Utf8Char.stray _ rest (Bool.eq_true_of_not_eq_false htrail))
      rw [hread, Prod.mk.injEq] at hstray
      rcases hq with hq | hq <;> exact absurd (hq.symm.trans hstray.1) (by decide)
    rw [trailing, List.takeWhile_cons, hnot]
    rfl

theorem readsAs_written (heol : s.eolType = .unix) (hblanks : s.charset.ReadsBlanks) {new : List CharPiece}
    (hnew : ∀ q ∈ new, q.IsBlank ∧ q = s.charset.piece q.ch) (hps : s.ReadsAs mem ps) : s.ReadsAs mem (new ++ ps) := by
  induction new with
  | nil => exact hps
  | cons q new ih =>
    obtain ⟨hq, hwritten⟩ := hnew q List.mem_cons_self
    have hbytes : q.bytes = s.charset.blank q.ch := congrArg CharPiece.bytes hwritten
    refine .cons (n := q.bytes.length) ?_ ?_ (.inl rfl) (ih fun r hr => hnew r (List.mem_cons_of_mem _ hr))
    · have hpos := (s.charset.length_blank hq).1
      rw [hbytes]
      exact List.ne_nil_of_length_pos hpos
    · rw [textOf_cons, hbytes]
      exact nextc_written heol hblanks hq _

/-- **A text with other blanks is read as its characters.** -/
theorem Reblanked.readsAs (heol : s.eolType = .unix) (hblanks : s.charset.ReadsBlanks) {col : Int}
    {ps' : List CharPiece} (h : Reblanked s.charset table tw col ps ps') : s.ReadsAs mem ps →
      s.ReadsAs mem ps' ∧ (ps = [] → ps' = []) ∧ (s.charset.HasUtf8 → trailing (textOf ps)
        = trailing (textOf ps')) := by
  have hkeep : ∀ {q : CharPiece} {ps ps' : List CharPiece}, s.ReadsAs mem (q :: ps) → s.ReadsAs mem ps' →
      (ps = [] → ps' = []) → (s.charset.HasUtf8 → trailing (textOf ps) = trailing (textOf ps')) →
      s.ReadsAs mem (q :: ps') := by
    intro q ps ps' hq hps' hnil htrail
    cases hq with
    | @cons q ps n hne hread hn hps =>
      rcases hn with rfl | ⟨hlt, hlast⟩
      · exact .cons hne (DecodeStateC.nextc_stable heol hne hread htrail) (.inl rfl) hps'
      · obtain rfl := hlast
        obtain rfl := hnil rfl
        exact .cons hne hread (.inr ⟨hlt, rfl⟩) .nil
  induction h with
  | nil => exact fun h => ⟨h, id, fun _ => rfl⟩
  | @keep col q ps ps' _ ih =>
    intro h
    obtain ⟨hps', hnil, htrail⟩ := ih h.tail
    refine ⟨hkeep h hps' hnil htrail, fun h => absurd h (List.cons_ne_nil _ _), fun hutf8 => ?_⟩
    rw [textOf_cons, textOf_cons, trailing, trailing, List.takeWhile_append, List.takeWhile_append,
      show (textOf ps).takeWhile utf8IsTrailingByte = _ from htrail hutf8]
  | @written col bs new ps ps' hbs hnew hblank hwritten hcol hrest ih =>
    intro h
    have hps : s.ReadsAs mem ps := by
      clear hbs hblank hcol hrest ih
      induction bs with
      | nil => exact h
      | cons q bs ih => exact ih h.tail
    obtain ⟨hps', -, -⟩ := ih hps
    have hread := readsAs_written heol hblanks hwritten hps'
    refine ⟨hread, fun h => absurd (List.append_eq_nil_iff.mp h).1 hbs, fun hutf8 => ?_⟩
    obtain ⟨q, bs, rfl⟩ := List.exists_cons_of_ne_nil hbs
    obtain ⟨r, new, rfl⟩ := List.exists_cons_of_ne_nil hnew
    rw [List.cons_append] at h hread ⊢
    rw [trailing_blank hutf8 heol h (hblank q List.mem_cons_self), List.cons_append,
      trailing_blank hutf8 heol hread (hwritten r List.mem_cons_self).1]
  | @absorbed col bs q ps ps' hblank hq hcol hrest ih =>
    intro h
    have hlast : s.ReadsAs mem (q :: ps) := by
      clear hblank hcol hrest ih
      induction bs with
      | nil => exact h
      | cons q bs ih => exact ih h.tail
    obtain ⟨hps', hnil, htrail⟩ := ih hlast.tail
    have hread := hkeep hlast hps' hnil htrail
    refine ⟨hread, fun h => absurd (List.append_eq_nil_iff.mp h).2 (List.cons_ne_nil _ _), fun hutf8 => ?_⟩
    rw [trailing_blank hutf8 heol hread (.inl hq)]
    cases bs with
    | nil => exact trailing_blank hutf8 heol h (.inl hq)
    | cons r bs => exact trailing_blank hutf8 heol h (hblank r List.mem_cons_self)

end Reading

/-! ## The runs -/

section Runs

variable {p : TabParams} {b : SearchBuffer} {stop : Int}

variable {ps : List CharPiece} {o : Nat}

/-- The character at an offset, as the first one of the characters from there on. -/
theorem readsAs_split {e c : Nat} (ho : o < b.text.length) (hread : (b.reader p.mem).nextc o = (c, (e : Int)))
    (hps : b.state.ReadsAs p.mem ps) (hdrop : b.text.drop o = textOf ps) :
    ∃ q ps', ps = q :: ps' ∧ q.ch = c ∧ b.kept o e = q.bytes ∧ b.text.drop e = textOf ps' ∧
      b.state.ReadsAs p.mem ps' := by
  cases ps with
  | nil =>
    have hlen := congrArg List.length hdrop
    rw [List.length_drop, textOf_nil, List.length_nil] at hlen
    omega
  | cons q ps =>
    obtain ⟨e', hread', -, hrest, hbytes⟩ := hps.nextc ho.le hdrop
    rw [SearchBuffer.reader, hread', Prod.mk.injEq, Nat.cast_inj] at hread
    obtain ⟨hch, rfl⟩ := hread
    exact ⟨q, ps, rfl, hch, hbytes, hrest, hps.tail⟩

theorem readsAs_end (ho : (b.text.length : Int) ≤ o) (hps : b.state.ReadsAs p.mem ps)
    (hdrop : b.text.drop o = textOf ps) : ps = [] :=
  hps.eq_nil (by rw [← hdrop, List.drop_eq_nil_of_le (by omega)])

theorem spaces_append (charset : CharsetC) {m n : Int} (hm : 0 ≤ m) (hn : 0 ≤ n) :
    charset.spaces m ++ charset.spaces n = charset.spaces (m + n) := by
  rw [CharsetC.spaces, CharsetC.spaces, CharsetC.spaces, ← List.flatten_append, ← List.replicate_add,
    Int.toNat_add hm hn]

theorem textOf_spaces (charset : CharsetC) (n : Nat) :
    textOf (List.replicate n (charset.piece 32)) = charset.spaces n := by
  induction n with
  | zero => rfl
  | succ n ih =>
    rw [List.replicate_succ, textOf_cons, ih, CharsetC.spaces, CharsetC.spaces, Int.toNat_natCast, Int.toNat_natCast,
      List.replicate_succ, List.flatten_cons]
    rfl

theorem tabsTo_expand {k e : Nat} {col col' : Int} (h : (b.reader p.mem).TabsTo p.tw k col e col') :
    col.tmod p.tw = 0 → 0 ≤ col → ∀ {ps : List CharPiece}, b.state.ReadsAs p.mem ps → b.text.drop k = textOf ps →
      ∃ ps', b.state.ReadsAs p.mem ps' ∧ b.text.drop e = textOf ps' ∧ col ≤ col' ∧
        textOf (expandTabs b.state.charset p.table p.tw col ps)
          = b.state.charset.spaces (col' - col) ++ textOf (expandTabs b.state.charset p.table p.tw col' ps') := by
  have htw : 0 < p.tw := tabColumns_pos _
  induction h with
  | @refl k col hno =>
    intro _ _ ps hps hdrop
    refine ⟨ps, hps, hdrop, Int.le_refl _, ?_⟩
    rw [Int.sub_self, CharsetC.spaces]
    rfl
  | @tab k o e col col' hread _ ih =>
    intro hstop hcol ps hps hdrop
    have hnext := nextTab_stop hstop
    obtain ⟨q, ps, rfl, hq, -, hrest, hps'⟩ := readsAs_split (TabParams.lt_of_tab hread (by decide)).1 hread hps hdrop
    obtain ⟨ps', hreads, hdrop', hle, htext⟩ :=
      ih (by rw [← hnext]; exact nextTab_tmod hcol) (by omega) hps' hrest
    refine ⟨ps', hreads, hdrop', by omega, ?_⟩
    rw [expandTabs, if_pos hq, textOf_append, textOf_spaces, hnext, htext, ← List.append_assoc, Int.toNat_of_nonneg
      (by omega), spaces_append _ (by omega) (by omega), show col + p.tw - col +
        (col' - (col + p.tw)) = col' - col by omega]

/-- **`do_untabify` makes the TABs of a text spaces.** -/
theorem TabParams.Untabified.expand (hro : b.readOnly = false) (hstart : p.start ≤ 0) (hstop : stop = b.text.length)
    {col : Int} {out : List UInt8} (h : p.Untabified b stop o col out) : 0 ≤ col → ∀ {ps : List CharPiece},
      b.state.ReadsAs p.mem ps → b.text.drop o = textOf ps →
      out = textOf (expandTabs b.state.charset p.table p.tw col ps) := by
  have htw : 0 < p.tw := tabColumns_pos _
  induction h with
  | @done o col ho =>
    intro _ ps hps hdrop
    obtain rfl := readsAs_end (by omega) hps hdrop
    exact hdrop
  | @line o e c col out hlt hread hline _ ih =>
    intro _ ps hps hdrop
    obtain ⟨q, ps, rfl, hq, hbytes, hrest, hps'⟩ := readsAs_split (by omega) hread hps hdrop
    rw [expandTabs, if_neg (by omega), textOf_cons, hbytes, ih (Int.le_refl 0) hps' hrest, columnAfter,
      if_pos (hq.symm ▸ hline)]
  | @char o e c col out hlt hread hline htab _ ih =>
    intro hcol ps hps hdrop
    obtain ⟨q, ps, rfl, hq, hbytes, hrest, hps'⟩ := readsAs_split (by omega) hread hps hdrop
    rw [expandTabs, if_neg (by omega), textOf_cons, hbytes, ih (by omega) hps' hrest, columnAfter,
      if_neg (by omega), if_neg (by omega), hq]
  | before hlt hread hbefore => omega
  | @tabs o e e' col col' out hlt hread hregion htabs _ ih =>
    intro hcol ps hps hdrop
    obtain ⟨q, ps, rfl, hq, -, hrest, hps'⟩ := readsAs_split (by omega) hread hps hdrop
    have hnext := @lt_nextTab _ col htw
    obtain ⟨ps', hreads, hdrop', hle, htext⟩ :=
      tabsTo_expand htabs (nextTab_tmod hcol) (by omega) hps' hrest
    rw [SearchBuffer.rewritten, if_neg (by rw [hro]; exact Bool.false_ne_true), expandTabs, if_pos hq, textOf_append,
      textOf_spaces, htext, ih (by omega) hreads hdrop', ← List.append_assoc, Int.toNat_of_nonneg (by omega),
      spaces_append _ (by omega) (by omega),
      show nextTab p.tw col - col + (col' - nextTab p.tw col) = col' - col by omega]

variable (p b) in
/-- What the blanks are that the inner loop of `do_tabify` finds from an offset and a column on. -/
def SpaceOutcome.Found (k : Nat) (col : Int) (bs : List CharPiece) : SpaceOutcome → Prop
  | stays e _ => b.kept k e = textOf bs
  | tab o e _ => ∃ spaces q, bs = spaces ++ [q] ∧ q.ch = 9 ∧ b.kept o e = q.bytes ∧
      nextTab p.tw (columnsAfter p.table p.tw col spaces) = nextTab p.tw col
  | full _ col' => nextTab p.tw col = col'

theorem spacesTo_found {k : Nat} {col : Int} {r : SpaceOutcome} (h : (b.reader p.mem).SpacesTo p.tw stop k col r) :
    0 ≤ col → ∀ {ps : List CharPiece}, b.state.ReadsAs p.mem ps → b.text.drop k = textOf ps →
      ∃ bs ps', ps = bs ++ ps' ∧ (∀ q ∈ bs, q.IsBlank) ∧ b.state.ReadsAs p.mem ps' ∧
        b.text.drop r.next.1 = textOf ps' ∧ columnsAfter p.table p.tw col bs = r.next.2 ∧ r.Found p b k col bs := by
  have htw : 0 < p.tw := tabColumns_pos _
  have hnone : ∀ {k : Nat}, b.kept k k = textOf [] := fun {k} => SearchBuffer.kept_of_le (Nat.le_refl k)
  induction h with
  | outside => exact fun _ ps hps hdrop => ⟨[], ps, rfl, by simp, hps, hdrop, rfl, hnone⟩
  | other => exact fun _ ps hps hdrop => ⟨[], ps, rfl, by simp, hps, hdrop, rfl, hnone⟩
  | @tab k e col hlt hread =>
    intro hcol ps hps hdrop
    obtain ⟨q, ps, rfl, hq, hbytes, hrest, hps'⟩ := readsAs_split
      (TabParams.lt_of_tab hread (by decide)).1 hread hps hdrop
    refine ⟨[q], ps, rfl, fun r hr => List.mem_singleton.mp hr ▸ .inl hq, hps', hrest, ?_, [], q, rfl, hq, hbytes, rfl⟩
    rw [columnsAfter_cons, columnsAfter_nil, columnAfter_blank (.inl hq), if_pos hq]
    rfl
  | @full k e col hlt hread hfull =>
    intro hcol ps hps hdrop
    obtain ⟨q, ps, rfl, hq, -, hrest, hps'⟩ := readsAs_split (TabParams.lt_of_tab hread (by decide)).1 hread hps hdrop
    refine ⟨[q], ps, rfl, fun r hr => List.mem_singleton.mp hr ▸ .inr hq, hps', hrest, ?_, nextTab_full htw hcol hfull⟩
    rw [columnsAfter_cons, columnsAfter_nil, columnAfter_blank (.inr hq), if_neg (by omega)]
    rfl
  | @space k e col r hlt hread hfull hspaces ih =>
    intro hcol ps hps hdrop
    have hin := TabParams.lt_of_tab hread (by decide)
    obtain ⟨q, ps, rfl, hq, hbytes, hrest, hps'⟩ := readsAs_split hin.1 hread hps hdrop
    obtain ⟨bs, ps', rfl, hbs, hreads, hdrop', hcols, hfound⟩ := ih (by omega) hps' hrest
    have hafter : columnAfter p.table p.tw col q.ch = col + 1 := by
      rw [columnAfter_blank (.inr hq), if_neg (by omega)]
    have hnext := nextTab_succ htw hcol hfull
    refine ⟨q :: bs, ps', rfl, List.forall_mem_cons.mpr ⟨.inr hq, hbs⟩, hreads, hdrop', ?_, ?_⟩
    · rw [columnsAfter_cons, hafter, hcols]
    · have hle := TabParams.le_of_spacesTo hspaces
      cases r with
      | stays e' col' =>
        rw [SpaceOutcome.Found, textOf_cons, ← hfound, ← hbytes,
          SearchBuffer.kept_append_kept hin.2.le (show e ≤ e' from hle)]
      | tab o e' col' =>
        obtain ⟨spaces, q', rfl, hq', hkept, hstop⟩ := hfound
        refine ⟨q :: spaces, q', rfl, hq', hkept, ?_⟩
        rw [columnsAfter_cons, hafter, hstop, hnext]
      | full e' col' => exact hnext.symm.trans hfound

theorem Reblanked.keep_all {charset : CharsetC} {table : Nat → Nat} {tw col : Int} (bs : List CharPiece)
    {ps' : List CharPiece} (h : Reblanked charset table tw (columnsAfter table tw col bs) ps ps') :
    Reblanked charset table tw col (bs ++ ps) (bs ++ ps') := by
  induction bs generalizing col with
  | nil => exact h
  | cons q bs ih => exact .keep (ih h)

/-- **`do_tabify` replaces blanks by blanks that end in the same column.** -/
theorem TabParams.Tabified.reblanked (hro : b.readOnly = false) (hstart : p.start ≤ 0) (hstop : stop = b.text.length)
    {col : Int} {out : List UInt8} (h : p.Tabified b stop o col out) : 0 ≤ col → ∀ {ps : List CharPiece},
      b.state.ReadsAs p.mem ps → b.text.drop o = textOf ps →
      ∃ ps', Reblanked b.state.charset p.table p.tw col ps ps' ∧ out = textOf ps' := by
  have htw : 0 < p.tw := tabColumns_pos _
  induction h with
  | @done o col ho =>
    intro _ ps hps hdrop
    obtain rfl := readsAs_end (by omega) hps hdrop
    exact ⟨[], .nil, hdrop⟩
  | @line o e c col out hlt hread hline _ ih =>
    intro _ ps hps hdrop
    obtain ⟨q, ps, rfl, hq, hbytes, hrest, hps'⟩ := readsAs_split (by omega) hread hps hdrop
    obtain ⟨ps', hnew, rfl⟩ := ih (Int.le_refl 0) hps' hrest
    refine ⟨q :: ps', .keep ?_, by rw [hbytes, textOf_cons]⟩
    rw [columnAfter, if_pos (hq.symm ▸ hline)]
    exact hnew
  | @tab o e col out hlt hread _ ih =>
    intro hcol ps hps hdrop
    obtain ⟨q, ps, rfl, hq, hbytes, hrest, hps'⟩ := readsAs_split (by omega) hread hps hdrop
    obtain ⟨ps', hnew, rfl⟩ := ih (Int.le_trans hcol (lt_nextTab htw).le) hps' hrest
    refine ⟨q :: ps', .keep ?_, by rw [hbytes, textOf_cons]⟩
    rw [columnAfter_blank (.inl hq), if_pos hq]
    exact hnew
  | @char o e c col out hlt hread hline htab _ _ ih =>
    intro hcol ps hps hdrop
    obtain ⟨q, ps, rfl, hq, hbytes, hrest, hps'⟩ := readsAs_split (by omega) hread hps hdrop
    obtain ⟨ps', hnew, rfl⟩ := ih (by omega) hps' hrest
    refine ⟨q :: ps', .keep ?_, by rw [hbytes, textOf_cons]⟩
    rw [columnAfter, if_neg (by omega), if_neg (by omega), hq]
    exact hnew
  | @spaces o e col r out hlt hread hregion hfull hspaces _ ih =>
    intro hcol ps hps hdrop
    rw [TabParams.qeWcwidth_space, Nat.cast_one] at hfull hspaces
    have hin := TabParams.lt_of_tab hread (by decide)
    have hle := TabParams.le_of_spacesTo hspaces
    obtain ⟨q, ps, rfl, hq, hbytes, hrest, hps'⟩ := readsAs_split hin.1 hread hps hdrop
    obtain ⟨bs, ps, rfl, hbs, hreads, hdrop', hcols, hfound⟩ := spacesTo_found hspaces (by omega) hps' hrest
    have hafter : columnAfter p.table p.tw col q.ch = col + 1 := by
      rw [columnAfter_blank (.inr hq), if_neg (by omega)]
    have hnext := nextTab_succ htw hcol hfull
    have hblank : ∀ r ∈ q :: bs, r.IsBlank := List.forall_mem_cons.mpr ⟨.inr hq, hbs⟩
    have hgrow := @le_columnsAfter_blanks p.table _ htw _ hbs (col + 1)
    obtain ⟨ps', hnew, rfl⟩ := ih (by omega) hreads hdrop'
    cases r with
    | stays e' col' =>
      refine ⟨q :: bs ++ ps', Reblanked.keep_all (q :: bs) ?_, ?_⟩
      · rw [columnsAfter_cons, hafter, hcols]
        exact hnew
      · rw [SpaceOutcome.piece, ← SearchBuffer.kept_append_kept hin.2.le (show e ≤ e' from hle), hbytes, hfound,
          textOf_append, textOf_cons]
    | tab o₁ e' col' =>
      obtain ⟨spaces, q', rfl, hq', hkept, hstop'⟩ := hfound
      have hblank' : ∀ r ∈ q :: spaces, r.IsBlank := fun r hr =>
        hblank r (List.cons_subset_cons q (List.subset_append_left spaces [q']) hr)
      have hcol' : nextTab p.tw col = col' := by
        rw [columnsAfter_append, columnsAfter_cons, columnsAfter_nil, columnAfter_blank (.inl hq'), if_pos hq',
          hstop', hnext] at hcols
        exact hcols
      refine ⟨q' :: ps', ?_, ?_⟩
      · have habsorbed := @Reblanked.absorbed b.state.charset _ _ col _ _ _ _ hblank' hq'
          (by rw [columnsAfter_cons, hafter, hstop', hnext]) (hcol'.symm ▸ hnew)
        rw [List.append_assoc, List.singleton_append]
        exact habsorbed
      · rw [SpaceOutcome.piece, SearchBuffer.rewritten, if_neg (by rw [hro]; exact Bool.false_ne_true), List.nil_append,
          hkept, textOf_cons]
    | full e' col' =>
      have hcol' : nextTab p.tw col = col' := hnext.symm.trans hfound
      have hall : columnsAfter p.table p.tw col (q :: bs) = col' := by rw [columnsAfter_cons, hafter, hcols]; rfl
      refine ⟨[b.state.charset.piece 9] ++ ps', @Reblanked.written _ _ _ _ (q :: bs) _ _ _ (by simp)
        (by simp) hblank ?_ ?_ ?_, ?_⟩
      · intro r hr
        rw [List.mem_singleton.mp hr]
        exact ⟨.inl rfl, rfl⟩
      · rw [hall, ← hcol', columnsAfter_cons, columnsAfter_nil]
        exact columnAfter_blank (q := b.state.charset.piece 9) (.inl rfl)
      · rw [hall]
        exact hnew
      · rw [SpaceOutcome.piece, SearchBuffer.rewritten, if_neg (by rw [hro]; exact Bool.false_ne_true),
          List.singleton_append, textOf_cons]
        rfl

end Runs

/-! ## The whole buffer -/

section Whole

variable {charset : CharsetC} {table : Nat → Nat} {tw : Int}

variable {ps : List CharPiece}

theorem Reblanked.written_spaces {col : Int} {ps' : List CharPiece} (h : Reblanked charset table tw col ps ps') :
    (∀ q ∈ ps, q.ch = 32 → q = charset.piece 32) → ∀ q ∈ ps', q.ch = 32 → q = charset.piece 32 := by
  induction h with
  | nil => exact id
  | keep _ ih =>
    intro h
    obtain ⟨hq, hps⟩ := List.forall_mem_cons.mp h
    exact List.forall_mem_cons.mpr ⟨hq, ih hps⟩
  | written _ _ _ hnew _ _ ih =>
    intro h q hq hspace
    rcases List.mem_append.mp hq with hq | hq
    · rw [(hnew q hq).2, hspace]
    · exact ih (fun r hr => h r (List.mem_append_right _ hr)) q hq hspace
  | absorbed _ htab _ _ ih =>
    intro h
    refine List.forall_mem_cons.mpr ⟨fun hspace => ?_, ih fun r hr => h r (by simp [hr])⟩
    exact absurd (htab.symm.trans hspace) (by decide)

theorem map_rewriteSpace (h : ∀ q ∈ ps, q.ch = 32 → q = charset.piece 32) :
    ps.map charset.rewriteSpace = ps := by
  refine (List.map_congr_left fun q hq => ?_).trans (List.map_id ps)
  rw [CharsetC.rewriteSpace, id]
  split
  · rename_i hspace
    exact (h q hq hspace).symm
  · rfl

theorem map_ch_rewriteSpace (ps : List CharPiece) :
    (ps.map charset.rewriteSpace).map CharPiece.ch = ps.map CharPiece.ch := by
  rw [List.map_map]
  exact List.map_congr_left fun q _ => charset.rewriteSpace_ch q

variable (b : SearchBuffer) (mem : Uninit) (tabWidth : Int)

/-- Every space is in the bytes that the charset writes for it. -/
def SearchBuffer.SpacesWritten : Prop :=
  ∀ o e : Nat, (b.reader mem).Ahead 0 o → (b.reader mem).nextc o = (32, (e : Int)) →
    b.kept o e = b.state.charset.blank 32

variable {b mem} in
theorem SearchBuffer.SpacesWritten.pieces (h : b.SpacesWritten mem) : ∀ {ps : List CharPiece} {o : Nat},
    b.state.ReadsAs mem ps → b.text.drop o = textOf ps → (b.reader mem).Ahead 0 o →
    ∀ q ∈ ps, q.ch = 32 → q = b.state.charset.piece 32 := by
  intro ps
  induction ps with
  | nil => intro o _ _ _ q hq; exact absurd hq List.not_mem_nil
  | cons q ps ih =>
    intro o hps hdrop ho
    have hlt : o < b.text.length := by
      by_contra hge
      rw [List.drop_eq_nil_of_le (by omega)] at hdrop
      exact List.cons_ne_nil _ _ (hps.eq_nil hdrop.symm)
    obtain ⟨e, hread, -, hrest, hbytes⟩ := hps.nextc hlt.le hdrop
    refine List.forall_mem_cons.mpr ⟨fun hspace => ?_, ih hps.tail hrest (ho.tail (congrArg Prod.snd hread : _))⟩
    have hkept := h o e ho (by rw [SearchBuffer.reader, hread, hspace])
    rw [SearchBuffer.kept, hbytes] at hkept
    cases q
    cases hspace
    cases hkept
    rfl

variable (table)

theorem SearchBuffer.tabRange_whole : b.tabRange 0 b.text.length = (0, (b.text.length : Int)) := by
  rw [tabRange, Prod.mk.injEq]
  omega

theorem SearchBuffer.tabStart_whole : b.tabStart mem 0 b.text.length = 0 := by
  have hle := (b.tabStart_le mem 0 b.text.length).2
  rw [tabRange_whole] at hle
  simp only [] at hle
  omega

variable {b mem}

theorem SearchBuffer.doUntabify_whole (hro : b.readOnly = false) {ps : List CharPiece} (hps : b.state.ReadsAs mem ps)
    (htext : b.text = textOf ps) : b.doUntabify mem table tabWidth 0 b.text.length
      = some { b with text := textOf (expandTabs b.state.charset table (tabColumns tabWidth) 0 ps) } := by
  obtain ⟨out, hout, heq⟩ := b.doUntabify_eq mem 0 b.text.length table tabWidth
  rw [tabRange_whole, tabStart_whole] at hout
  rw [heq, tabStart_whole, hout.expand hro (Int.le_refl 0) rfl (Int.le_refl 0) hps htext]
  rfl

theorem SearchBuffer.doTabify_whole (hro : b.readOnly = false) (hps : b.state.ReadsAs mem ps)
    (htext : b.text = textOf ps) : ∃ ps', Reblanked b.state.charset table (tabColumns tabWidth) 0 ps ps' ∧
      b.doTabify mem table tabWidth 0 b.text.length = some { b with text := textOf ps' } := by
  obtain ⟨out, hout, heq⟩ := b.doTabify_eq mem 0 b.text.length table tabWidth
  rw [tabRange_whole, tabStart_whole] at hout
  obtain ⟨ps', hnew, rfl⟩ := hout.reblanked hro (Int.le_refl 0) rfl (Int.le_refl 0) hps htext
  exact ⟨ps', hnew, by rw [heq, tabStart_whole]; rfl⟩

/-- **The conversion of TABs keeps the layout.** After `do_untabify` there is no TAB, and what it makes of the text is
the same before and after `do_tabify`, byte for byte if the spaces are written as the charset writes them. -/
theorem tabs_keep_layout (heol : b.state.eolType = .unix) (hro : b.readOnly = false)
    (hblanks : b.state.charset.ReadsBlanks) : ∃ t u v : SearchBuffer,
      b.doTabify mem table tabWidth 0 b.text.length = some t ∧
      b.doUntabify mem table tabWidth 0 b.text.length = some u ∧
      t.doUntabify mem table tabWidth 0 t.text.length = some v ∧
      (t.reader mem).layout (qeWcwidth table) (tabColumns tabWidth)
        = (b.reader mem).layout (qeWcwidth table) (tabColumns tabWidth) ∧
      (u.reader mem).layout (qeWcwidth table) (tabColumns tabWidth)
        = (b.reader mem).layout (qeWcwidth table) (tabColumns tabWidth) ∧
      9 ∉ (u.reader mem).chars ∧ (v.reader mem).chars = (u.reader mem).chars ∧ (b.SpacesWritten mem → v = u) := by
  have htw := tabColumns_pos tabWidth
  obtain ⟨ps, hps, htext⟩ := @DecodeStateC.exists_readsAs b.state mem _ _ (Nat.le_refl b.text.length)
  obtain ⟨ps', hnew, htabify⟩ := b.doTabify_whole table tabWidth hro hps htext.symm
  have huntabify := b.doUntabify_whole table tabWidth hro hps htext.symm
  have hps' := (hnew.readsAs heol hblanks hps).1
  have hagain := SearchBuffer.doUntabify_whole (b := { b with text := textOf ps' }) table tabWidth hro hps' rfl
  have hexpanded := @expandTabs_reblanked b.state.charset table _ htw 0 ps
  have hexpanded' := @expandTabs_reblanked b.state.charset table _ htw 0 ps'
  have hreads := (hexpanded.readsAs heol hblanks hps).1
  have hreads' := (hexpanded'.readsAs heol hblanks hps').1
  have hsame := hnew.expandTabs_eq htw
  refine ⟨_, _, _, htabify, huntabify, hagain, ?_, ?_, ?_, ?_, fun hwritten => ?_⟩
  · rw [SearchBuffer.reader, SearchBuffer.reader, hps'.layout htw, ← htext, hps.layout htw, hnew.inkOf_eq]
  · rw [SearchBuffer.reader, SearchBuffer.reader, hreads.layout htw, ← htext, hps.layout htw, hexpanded.inkOf_eq]
  · rw [SearchBuffer.reader, hreads.chars]
    exact expandTabs_no_tab 0 ps
  · rw [SearchBuffer.reader, SearchBuffer.reader, hreads.chars, hreads'.chars]
    rw [← @map_ch_rewriteSpace b.state.charset, hsame, map_ch_rewriteSpace]
  · have hspaces := hwritten.pieces hps (o := 0) htext.symm .refl
    have hspaces' := hnew.written_spaces hspaces
    rw [map_rewriteSpace (hexpanded.written_spaces hspaces), map_rewriteSpace (hexpanded'.written_spaces hspaces')]
      at hsame
    rw [hsame]

end Whole

/-- A TAB between two letters. -/
theorem tabs_keep_layout_letters : ∃ u : SearchBuffer,
    SearchBuffer.doUntabify ⟨⟨.narrow .utf8, .unix⟩, false, false, [97, 9, 98]⟩ (fun _ => 0)
    (fun _ => 1) 4 0 3 = some u ∧
      (u.reader fun _ => 0).layout (qeWcwidth fun _ => 1) 4 = [(97, 0, some 0), (98, 0, some 4)] ∧
      9 ∉ (u.reader fun _ => 0).chars := by
  obtain ⟨t, u, v, -, hu, -, -, hlayout, hno, -⟩ := @tabs_keep_layout (fun _ => 1)
    ⟨⟨.narrow .utf8, .unix⟩, false, false, [97, 9, 98]⟩ (fun _ => 0) 4 rfl rfl trivial
  exact ⟨u, hu, hlayout.trans rfl, hno⟩

/-- A space in two bytes of UTF-8, and one in one byte: `do_tabify` makes them a TAB, and that becomes two spaces in
one byte each. -/
theorem untabify_tabify_overlong :
    ¬∀ (b : SearchBuffer) (mem : Uninit) (table : Nat → Nat) (tabWidth : Int), b.state.eolType = .unix →
      b.readOnly = false → 0 < tabWidth → ∀ t, b.doTabify mem table tabWidth 0 b.text.length = some t →
        t.doUntabify mem table tabWidth 0 t.text.length = b.doUntabify mem table tabWidth 0 b.text.length := by
  intro h
  have hsame := h ⟨⟨.narrow .utf8, .unix⟩, false, false, [192, 160, 32]⟩ (fun _ => 0) (fun _ => 1) 2 rfl rfl (by decide)
    ⟨⟨.narrow .utf8, .unix⟩, false, false, [9]⟩ rfl
  have htext := congrArg (Option.map SearchBuffer.text) hsame
  exact absurd htext (by decide)

end Qemacs
