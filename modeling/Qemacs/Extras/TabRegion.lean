import Mathlib.Tactic.Linarith
import Qemacs.Extras.Tabs
import Qemacs.Text.Spelling

/-!
# Converting TABs outside the region

`do_tabify` looks ahead over spaces as long as it is before the end of the region. `do_untabify` looks ahead over
TABs without asking: where the end of the region is between two TABs, the TABs behind it are replaced too. So the
text outside the region stays as it was if and only if no run of TABs goes on behind the end of the region.

The end of the region can also be inside a character, and what is replaced is the whole character.
-/

namespace Qemacs

open Lib

/-! ## Blanks in a text -/

theorem nextcEol_plain {s : DecodeStateC} {text buf : List UInt8} {ch : Nat} {o : Int} {r : Nat × Int}
    (h : (s.nextcEol buf ch o).run text = some (r, text)) (hr : r.1 ≠ 10 ∧ r.1 ≠ 13) : r = (ch, o) := by
  unfold DecodeStateC.nextcEol at h
  by_cases hcr : ch = 13
  · rw [if_pos hcr] at h
    cases heol : s.eolType with
    | unix =>
      rw [heol] at h
      cases h
      exact absurd hcr hr.2
    | mac =>
      rw [heol] at h
      cases h
      exact absurd rfl hr.1
    | dos =>
      simp only [heol, StateT.run_bind, run_ebRead, Option.bind_eq_bind, Option.bind_some] at h
      by_cases hread : (bytesAt text o maxCharBytes).length ≥ 1
      · rw [if_pos hread] at h
        cases hdecode : s.charset.record.decodeFunc (readInto (bytesAt text o maxCharBytes) buf) with
        | none =>
          rw [hdecode] at h
          cases h
        | some d =>
          simp only [hdecode, StateT.run_bind, run_known, Option.bind_eq_bind, Option.bind_some] at h
          by_cases hlf : d.1 = 10
          · rw [if_pos hlf] at h
            cases h
            exact absurd rfl hr.1
          · rw [if_neg hlf] at h
            cases h
            exact absurd hcr hr.2
      · rw [if_neg hread] at h
        cases h
        exact absurd hcr hr.2
  · rw [if_neg hcr] at h
    split at h
    · rename_i hlf
      cases heol : s.eolType with
      | unix | dos =>
        rw [heol] at h
        cases h
        exact absurd hlf hr.1
      | mac =>
        rw [heol] at h
        cases h
        exact absurd rfl hr.2
    · cases h
      rfl

/-- In UTF-8 the last byte of a character is the character, or not in ASCII. -/
theorem Utf8Char.last {bytes : List UInt8} {ch len : Nat} (h : Utf8Char bytes ch len) (hch : ch < 128) :
    0 < len ∧ len ≤ bytes.length ∧ ∃ x, bytes[len - 1]? = some x ∧ (x.toNat = ch ∨ 128 ≤ x.toNat) := by
  cases h with
  | @ascii c rest hc => exact ⟨Nat.one_pos, by simp, c, rfl, .inl rfl⟩
  | stray => exact absurd hch (by decide)
  | @sequence lead tr rest hseq =>
    have hbounds := utf8xLength_bounds lead
    have hlen := hseq.length
    obtain ⟨front, x, rfl⟩ := (List.eq_nil_or_concat' tr).resolve_left (fun h => by
      rw [h, List.length_nil] at hlen
      omega)
    have htrail := (trailing_iff _).mp (hseq.trailing x (by simp))
    exact ⟨Nat.succ_pos _, by simp, x, by simp, .inr (UInt8.le_iff_toNat_le.mp htrail.1)⟩
  | @cut lead tr rest hlead =>
    have hge : 192 ≤ lead.toNat := UInt8.le_iff_toNat_le.mp (UInt8.not_lt.mp hlead)
    omega

variable {charset : CharsetC} {c : Nat}

theorem CharsetC.HasUtf8.blank (h : charset.HasUtf8) (hc : c = 9 ∨ c = 32) :
    charset.blank c = [UInt8.ofNat c] := by
  cases charset with
  | narrow charset => rcases h with rfl | rfl <;> rcases hc with rfl | rfl <;> rfl
  | table8bit _ | ucs2le | ucs2be | ucs4le | ucs4be => exact h.elim

/-- In the other charsets TABs and spaces are units of one size. -/
theorem CharsetC.length_blank_unit (h : ¬charset.HasUtf8) (hc : c = 9 ∨ c = 32) :
    (charset.blank c).length = charset.charSize := by
  cases charset with
  | narrow charset =>
    cases charset with
    | utf8 => exact absurd (.inl rfl) h
    | utf8x => exact absurd (.inr rfl) h
    | raw | iso8859_1 | vt100 | ascii7bit | macRoman => rcases hc with rfl | rfl <;> decide
  | table8bit t => exact length_encode8bit t c
  | ucs2le | ucs2be | ucs4le | ucs4be => rcases hc with rfl | rfl <;> decide

variable {e k : Nat}

/-- What is read as a TAB or a space is a unit. In UTF-8 it ends in the text, with a byte that only that character
ends with in ASCII. -/
theorem nextc_blank {b : SearchBuffer} {mem : Uninit} (hk : k < b.text.length)
    (hread : (b.reader mem).nextc k = (c, (e : Int))) (hc : c = 9 ∨ c = 32) :
    (¬b.state.charset.HasUtf8 → e = k + b.state.charset.charSize) ∧
    (b.state.charset.HasUtf8 → e ≤ b.text.length ∧ ∃ x, b.text[e - 1]? = some x ∧ (x.toNat = c ∨ 128 ≤ x.toNat)) := by
  obtain ⟨x, rest, hdrop⟩ := DecodeStateC.exists_byte hk
  obtain ⟨r, hrun⟩ := b.state.nextc_total mem b.text k
  rw [SearchBuffer.reader, DecodeStateC.reader_nextc_eq hrun] at hread
  subst hread
  rw [DecodeStateC.nextc_run hdrop] at hrun
  have hplain : ∀ {buf : List UInt8} {ch : Nat} {o : Int},
      (b.state.nextcEol buf ch o).run b.text = some ((c, (e : Int)), b.text) → ch = c ∧ o = e := by
    intro buf ch o h
    have heq := nextcEol_plain h (by simp only []; omega)
    rw [Prod.mk.injEq] at heq
    exact ⟨heq.1.symm, heq.2.symm⟩
  have hunit : (∃ ch buf, (b.state.nextcDecode mem x (k + 1)).run b.text
      = some (((ch, ((k + b.state.charset.charSize : Nat) : Int)), buf), b.text)) →
      e = k + b.state.charset.charSize := by
    rintro ⟨ch, buf, hdecode⟩
    rw [hdecode, Option.bind_some] at hrun
    have hoff : ((k + b.state.charset.charSize : Nat) : Int) = e := (hplain hrun).2
    omega
  have hwide : ∀ {be : Bool}, b.state.charset.bigEndian = some be → ∃ ch buf,
      (b.state.nextcDecode mem x (k + 1)).run b.text
        = some (((ch, ((k + b.state.charset.charSize : Nat) : Int)), buf), b.text) := by
    intro be hbe
    have hesc : b.state.charset.record.table x = escapeChar := by
      rw [(DecodeStateC.charSize_unit hbe).2]
      rfl
    obtain ⟨ch, hdecode, -⟩ := DecodeStateC.decodeFunc_unit hbe (p := DecodeStateC.padded b.text k)
      (by rw [DecodeStateC.length_padded]; exact (DecodeStateC.charSize_bounds _).2)
    exact ⟨ch, _, DecodeStateC.nextcDecode_escape hesc hdecode mem⟩
  have hbyte : b.state.charset.Is8bit → ∃ ch buf, (b.state.nextcDecode mem x (k + 1)).run b.text
      = some (((ch, ((k + b.state.charset.charSize : Nat) : Int)), buf), b.text) := by
    intro h8
    obtain ⟨hsize, hfunc, -⟩ := DecodeStateC.is8bit_facts h8
    rw [hsize]
    by_cases hesc : b.state.charset.record.table x = escapeChar
    · have hdecode : b.state.charset.record.decodeFunc (DecodeStateC.padded b.text k)
          = some (b.state.charset.record.table x, 1) := by
        rw [hfunc, DecodeStateC.padded, bytesAt_drop, hdrop]
        rfl
      exact ⟨_, _, DecodeStateC.nextcDecode_escape hesc hdecode mem⟩
    · exact ⟨_, _, DecodeStateC.nextcDecode_table hesc mem⟩
  have hutf8 : b.state.charset.record.table = tableUtf8 → b.state.charset.record.decodeFunc = utf8Decode →
      e ≤ b.text.length ∧ ∃ x, b.text[e - 1]? = some x ∧ (x.toNat = c ∨ 128 ≤ x.toNat) := by
    intro htable hfunc
    obtain ⟨ch, len, hchar⟩ := exists_utf8Char x rest
    have hdecode : ∃ buf, (b.state.nextcDecode mem x (k + 1)).run b.text
        = some (((ch, ((k + len : Nat) : Int)), buf), b.text) := by
      by_cases hlead : x < 0xC0
      · obtain ⟨hone, hval⟩ : len = 1 ∧ tableUtf8 x = ch := by
          generalize hbytes : x :: rest = bytes at hchar
          cases hchar with
          | ascii hascii =>
            obtain ⟨rfl, -⟩ := List.cons.inj hbytes
            exact ⟨rfl, if_pos hascii⟩
          | stray htrail =>
            obtain ⟨rfl, -⟩ := List.cons.inj hbytes
            have hge := ((trailing_iff _).mp htrail).1
            exact ⟨rfl, by rw [tableUtf8, if_neg (UInt8.not_lt.mpr hge), if_pos hlead]⟩
          | sequence hseq =>
            obtain ⟨rfl, -⟩ := List.cons.inj hbytes
            exact absurd hlead hseq.isLead
          | cut hcut =>
            obtain ⟨rfl, -⟩ := List.cons.inj hbytes
            exact absurd hlead hcut
        subst hone
        have hesc : b.state.charset.record.table x ≠ escapeChar := by
          rw [htable]
          exact forall_byte (P := fun c => c < 0xC0 → tableUtf8 c ≠ escapeChar) (by decide +kernel) x hlead
        have hrun := @DecodeStateC.nextcDecode_table _ b.text k _ hesc mem
        rw [htable, hval] at hrun
        exact ⟨_, hrun⟩
      · have hpadded := hchar.decode_padded hlead
        rw [← hdrop, ← DecodeStateC.padded_eq_take, ← hfunc] at hpadded
        exact ⟨_, DecodeStateC.nextcDecode_escape (by rw [htable]; exact tableUtf8_lead x hlead) hpadded mem⟩
    obtain ⟨buf, hdecode⟩ := hdecode
    rw [hdecode, Option.bind_some] at hrun
    have hch : ch = c := (hplain hrun).1
    have hoff : ((k + len : Nat) : Int) = e := (hplain hrun).2
    obtain ⟨hpos, hle, y, hy, hlast⟩ := hchar.last (by omega)
    have hlen := congrArg List.length hdrop
    rw [List.length_drop] at hlen
    rw [hch] at hlast
    refine ⟨by omega, y, ?_, hlast⟩
    rw [show e - 1 = k + (len - 1) by omega, ← List.getElem?_drop, hdrop, hy]
  generalize hcharset : b.state.charset = charset at *
  cases charset with
  | narrow charset =>
    cases charset with
    | utf8 => exact ⟨fun h => absurd (.inl rfl) h, fun _ => hutf8 rfl rfl⟩
    | utf8x => exact ⟨fun h => absurd (.inr rfl) h, fun _ => hutf8 rfl rfl⟩
    | raw | iso8859_1 | vt100 | ascii7bit | macRoman =>
      exact ⟨fun _ => hunit (hbyte trivial), fun h => by rcases h with h | h <;> cases h⟩
  | table8bit t => exact ⟨fun _ => hunit (hbyte trivial), False.elim⟩
  | ucs2le | ucs2be | ucs4le | ucs4be => exact ⟨fun _ => hunit (hwide rfl), False.elim⟩

/-! ## What is outside the region -/

abbrev CharReader.Ahead (v : CharReader) : Int → Int → Prop := Relation.ReflTransGen fun o e => v.next o = e

section Frame

variable {b : SearchBuffer} {start stop : Int}

theorem SearchBuffer.kept_append_drop {o : Nat} (h : o ≤ e) : b.kept o e ++ b.text.drop e = b.text.drop o := by
  conv_rhs => rw [← List.take_append_drop (e - o) (b.text.drop o), List.drop_drop, Nat.add_sub_cancel' h]
  rfl

theorem SearchBuffer.kept_append_kept {o e k : Nat} (h : o ≤ e)
    (h' : e ≤ k) : b.kept o e ++ b.kept e k = b.kept o k := by
  have hdrop : b.text.drop e = (b.text.drop o).drop (e - o) := by rw [List.drop_drop, Nat.add_sub_cancel' h]
  rw [kept, kept, kept, hdrop, show k - o = (e - o) + (k - e) by omega, List.take_add]

theorem SearchBuffer.kept_of_le {o : Nat} (h : e ≤ o) : b.kept o e = [] := by
  rw [kept, Nat.sub_eq_zero_of_le h, List.take_zero]

variable (b start stop) in
/-- What a loop makes of the text from an offset on begins and ends with what is there outside the region. -/
def SearchBuffer.Framed (o : Nat) (out : List UInt8) : Prop :=
  ∃ mid, out = b.kept o start.toNat ++ mid ++ b.text.drop (max (max o start.toNat) stop.toNat)

theorem SearchBuffer.Framed.drop (o : Nat) : b.Framed start stop o (b.text.drop o) := by
  refine ⟨b.kept (max o start.toNat) (max (max o start.toNat) stop.toNat), ?_⟩
  rw [List.append_assoc, kept_append_drop (Nat.le_max_left _ _)]
  rcases Nat.le_total o start.toNat with h | h
  · rw [Nat.max_eq_right h, kept_append_drop h]
  · rw [Nat.max_eq_left h, kept_of_le h, List.nil_append]

theorem SearchBuffer.Framed.keep {o e : Nat} {out : List UInt8} (hlt : o < stop) (he : o ≤ e)
    (h : b.Framed start stop e out) (hdone : stop ≤ e → out = b.text.drop e) :
    b.Framed start stop o (b.kept o e ++ out) := by
  rcases Int.lt_or_le e stop with hin | hout
  · obtain ⟨mid, rfl⟩ := h
    rcases Nat.le_total e start.toNat with hs | hs
    · refine ⟨mid, ?_⟩
      rw [← List.append_assoc, ← List.append_assoc, kept_append_kept he hs, Nat.max_eq_right hs,
        Nat.max_eq_right (Nat.le_trans he hs)]
    · refine ⟨b.kept (max o start.toNat) e ++ mid, ?_⟩
      rw [kept_of_le hs, List.nil_append, show max (max e start.toNat) stop.toNat = stop.toNat by omega,
        show max (max o start.toNat) stop.toNat = stop.toNat by omega, ← List.append_assoc, ← List.append_assoc]
      rcases Nat.le_total o start.toNat with h | h
      · rw [Nat.max_eq_right h, kept_append_kept h hs]
      · rw [Nat.max_eq_left h, kept_of_le h, List.nil_append]
  · rw [hdone hout, kept_append_drop he]
    exact .drop o

theorem SearchBuffer.Framed.replace {o : Nat} {w out : List UInt8} (hlt : o < stop) (hregion : start ≤ o)
    (h : b.Framed start stop e out) (hcut : stop < e → out = b.text.drop e ∧ b.kept stop.toNat e <:+ w) :
    b.Framed start stop o (w ++ out) := by
  have hmax : max (max o start.toNat) stop.toNat = stop.toNat := by omega
  rw [Framed, kept_of_le (by omega), hmax]
  rcases Int.lt_or_le stop e with hout | hin
  · obtain ⟨rfl, w, rfl⟩ := hcut hout
    exact ⟨w, by rw [List.nil_append, List.append_assoc, kept_append_drop (by omega)]⟩
  · obtain ⟨mid, rfl⟩ := h
    exact ⟨w ++ b.kept e start.toNat ++ mid, by
      rw [show max (max e start.toNat) stop.toNat = stop.toNat by omega]
      simp only [List.nil_append, List.append_assoc]⟩

/-- Where the end of the region is replaced, what is behind it stays if the replacement ends with it. -/
theorem SearchBuffer.suffix_replaced {w : List UInt8} (h : stop < e) (h0 : 0 ≤ stop) :
    b.text.drop stop.toNat <:+ w ++ b.text.drop e ↔ b.kept stop.toNat e <:+ w := by
  rw [← kept_append_drop (show stop.toNat ≤ e by omega)]
  constructor
  · rintro ⟨front, hfront⟩
    rw [← List.append_assoc] at hfront
    exact ⟨front, List.append_cancel_right hfront⟩
  · rintro ⟨front, hfront⟩
    exact ⟨front, by rw [← hfront, List.append_assoc]⟩

end Frame

/-! ## TABs that go on behind the region -/

theorem CharsetC.spaces_suffix (charset : CharsetC) {m n : Int} (h : m ≤ n) :
    charset.spaces m <:+ charset.spaces n := by
  obtain ⟨k, hk⟩ := Nat.exists_eq_add_of_le (Int.toNat_le_toNat h)
  refine ⟨(List.replicate k (charset.blank 32)).flatten, ?_⟩
  rw [spaces, spaces, hk, Nat.add_comm, List.replicate_add, List.flatten_append]

theorem CharsetC.length_spaces (charset : CharsetC) (n : Int) :
    (charset.spaces n).length = n.toNat * (charset.blank 32).length := by
  rw [spaces, List.length_flatten, List.map_replicate, List.sum_replicate_nat]

/-- Fewer bytes than some spaces have are the end of those spaces, if they are the end of any. -/
theorem CharsetC.suffix_spaces_iff (charset : CharsetC) {w front : List UInt8} {n : Int}
    (hlen : w.length ≤ (charset.spaces n).length) :
    w <:+ front ++ charset.spaces n ↔ ∃ m, w <:+ charset.spaces m := by
  constructor
  · intro h
    exact ⟨n, List.suffix_of_suffix_length_le h (List.suffix_append _ _) hlen⟩
  · rintro ⟨m, h⟩
    refine List.IsSuffix.trans ?_ (List.suffix_append _ _)
    rcases Int.le_total m n with hle | hle
    · exact h.trans (charset.spaces_suffix hle)
    · exact List.suffix_of_suffix_length_le h (charset.spaces_suffix hle) hlen

theorem CharsetC.getLast?_spaces (h : charset.HasUtf8) {n : Int} (hn : 0 < n) :
    (charset.spaces n).getLast? = some 32 := by
  obtain ⟨k, hk⟩ : ∃ k, n.toNat = k + 1 := ⟨n.toNat - 1, by omega⟩
  rw [spaces, hk, List.replicate_succ', List.flatten_append, List.flatten_singleton, h.blank (.inr rfl),
    List.getLast?_append]
  rfl

variable {o : Nat}

theorem SearchBuffer.getLast?_kept {b : SearchBuffer} (h : o < e) {x : UInt8} (hx : b.text[e - 1]? = some x)
    : (b.kept o e).getLast? = some x := by
  rw [kept, List.getLast?_take, if_neg (by omega), List.getElem?_drop, show o + (e - o - 1) = e - 1 by omega, hx]
  rfl

section Cross

variable {p : TabParams} {b : SearchBuffer} {stop : Int}

theorem TabsTo.last {v : CharReader} {tw : Int} {k e : Nat} {col col' : Int} (h : v.TabsTo tw k col e col') :
    k = e ∨ ∃ o : Nat, v.nextc o = (9, (e : Int)) := by
  induction h with
  | refl => exact .inl rfl
  | @tab k o e col col' hread _ ih =>
    rcases ih with rfl | hlast
    · exact .inr ⟨k, hread⟩
    · exact .inr hlast

variable {col col' tw : Int} {v : CharReader}

theorem tabsTo_le (htw : 0 < tw) (h : v.TabsTo tw k col e col') : col ≤ col' := by
  induction h with
  | refl => exact Int.le_refl _
  | tab _ _ ih => omega

theorem tabsTo_columns (htw : 0 < tw) (h : (b.reader p.mem).TabsTo tw k col e col') {size : Nat}
    (hsize : ∀ o o' : Nat, (b.reader p.mem).nextc o = (9, (o' : Int)) → o' ≤ o + size) :
    (e : Int) ≤ k + (col' - col) * size := by
  induction h with
  | refl => simp
  | @tab k o e col col' hread _ ih =>
    have hstep : (o : Int) ≤ k + size := by exact_mod_cast hsize k o hread
    have hone : (size : Int) ≤ tw * size := le_mul_of_one_le_left (Int.natCast_nonneg _) htw
    linarith

/-- Behind TABs that have been replaced, what is left of them is not what has been inserted, or it is the end of so
many spaces. -/
theorem cutTabs_suffix {e' : Nat} (hread : (b.reader p.mem).nextc o = (9, (e : Int)))
    (htabs : (b.reader p.mem).TabsTo p.tw e (nextTab p.tw col) e' col') (hlt : o < stop) (hcut : stop < e')
    (front : List UInt8) :
    b.kept stop.toNat e' <:+ front ++ b.state.charset.spaces (col' - col) ↔
      ∃ n, b.kept stop.toNat e' <:+ b.state.charset.spaces n := by
  have htw : 0 < p.tw := tabColumns_pos _
  have hnext : col < nextTab p.tw col := by
    have hmod := Int.tmod_lt_of_pos col htw
    rw [nextTab]
    omega
  have hinside : ∀ o o' : Nat, (b.reader p.mem).nextc o = (9, (o' : Int)) → o < b.text.length :=
    fun o o' h => (TabParams.lt_of_tab h (by decide)).1
  by_cases hutf8 : b.state.charset.HasUtf8
  · obtain ⟨k, hlast⟩ : ∃ k : Nat, (b.reader p.mem).nextc k = (9, (e' : Int)) := by
      rcases TabsTo.last htabs with rfl | hlast
      · exact ⟨o, hread⟩
      · exact hlast
    obtain ⟨hle, x, hx, hbyte⟩ := (nextc_blank (hinside k e' hlast) hlast (.inl rfl)).2 hutf8
    have hends := SearchBuffer.getLast?_kept (b := b) (o := stop.toNat) (e := e') (by omega) hx
    have hne : x ≠ 32 := by
      rintro rfl
      exact absurd hbyte (by decide)
    -- the last byte of a TAB is not a space
    have hno : ∀ front n, 0 < n → ¬b.kept stop.toNat e' <:+ front ++ b.state.charset.spaces n := by
      rintro front n hn ⟨rest, hrest⟩
      have hlast := congrArg List.getLast? hrest
      rw [List.getLast?_append, hends, Option.some_or, List.getLast?_append,
        CharsetC.getLast?_spaces hutf8 hn, Option.some_or] at hlast
      exact hne (Option.some.inj hlast)
    refine iff_of_false (hno front _ (by have := (tabsTo_le htw htabs); omega)) ?_
    rintro ⟨n, hn⟩
    rcases Int.lt_or_le 0 n with hpos | hzero
    · exact hno [] n hpos hn
    · rw [CharsetC.spaces, Int.toNat_eq_zero.mpr hzero, List.replicate_zero, List.flatten_nil,
        List.suffix_nil] at hn
      rw [hn] at hends
      cases hends
  · refine b.state.charset.suffix_spaces_iff ?_
    have hsize : ∀ o o' : Nat, (b.reader p.mem).nextc o = (9, (o' : Int)) → o' ≤ o + b.state.charset.charSize :=
      fun o o' h => ((nextc_blank (hinside o o' h) h (.inl rfl)).1 hutf8).le
    have hle := tabsTo_le htw htabs
    have hbound := tabsTo_columns htw htabs hsize
    have hfirst := hsize o e hread
    rw [CharsetC.length_spaces, CharsetC.length_blank_unit hutf8 (.inr rfl)]
    have hone : (b.state.charset.charSize : Int) ≤ (nextTab p.tw col - col) * b.state.charset.charSize :=
      le_mul_of_one_le_left (Int.natCast_nonneg _) (by omega)
    have hsum : (col' - col) * (b.state.charset.charSize : Int) = (col' - nextTab p.tw col) * b.state.charset.charSize
        + (nextTab p.tw col - col) * b.state.charset.charSize := by
      rw [← Int.add_mul, show col' - nextTab p.tw col + (nextTab p.tw col - col) = col' - col by omega]
    have hcast : (((col' - col).toNat * b.state.charset.charSize : Nat) : Int)
        = (col' - col) * b.state.charset.charSize := by
      rw [Int.natCast_mul, Int.toNat_of_nonneg (by omega)]
    have hkept : (b.kept stop.toNat e').length ≤ e' - stop.toNat := by
      rw [SearchBuffer.kept, List.length_take]
      omega
    omega

theorem TabsTo.recount (h : v.TabsTo tw k col e col') (tw₂ col₂ : Int) : ∃ col₂', v.TabsTo tw₂ k col₂ e col₂' := by
  induction h generalizing col₂ with
  | refl hno => exact ⟨_, .refl hno⟩
  | tab hread _ ih =>
    obtain ⟨col₂', h⟩ := ih (col₂ + tw₂)
    exact ⟨col₂', .tab hread h⟩

theorem TabsTo.unique {tw₂ : Int} {e₂ : Nat} {col₂ col₂' : Int} (h : v.TabsTo tw k col e col')
    (h₂ : v.TabsTo tw₂ k col₂ e₂ col₂') : e = e₂ := by
  induction h generalizing col₂ with
  | refl hno =>
    cases h₂ with
    | refl => rfl
    | tab hread => exact absurd (congrArg Prod.fst hread) hno
  | tab hread _ ih =>
    cases h₂ with
    | refl hno => exact absurd (congrArg Prod.fst hread) hno
    | tab hread₂ h₂ =>
      rw [hread, Prod.mk.injEq, Nat.cast_inj] at hread₂
      exact ih (hread₂.2 ▸ h₂)

variable {x : Nat}

theorem TabsTo.ahead (h : v.TabsTo tw k col e col') (hx : v.Ahead k x)
    : v.Ahead e x ∨ ∃ col₂, v.TabsTo tw x col₂ e col' := by
  induction h with
  | refl => exact .inl hx
  | @tab k o e col col' hread hrest ih =>
    rcases hx.cases_head with heq | ⟨o', ho', hx⟩
    · rw [Nat.cast_inj] at heq
      exact .inr ⟨col, heq ▸ .tab hread hrest⟩
    · obtain rfl : (o : Int) = o' := by rw [← ho', CharReader.next, hread]
      exact ih hx

theorem TabsTo.reaches (h : v.TabsTo tw k col e col') : v.Ahead k e := by
  induction h with
  | refl => exact .refl
  | tab hread _ ih => exact .head (by rw [CharReader.next, hread]) ih

variable (b) in
theorem SearchBuffer.le_of_ahead {mem : Uninit} (hstop : stop ≤ b.text.length) {o x : Int} (ho : stop ≤ o)
    (h : (b.reader mem).Ahead o x) : stop ≤ x := by
  induction h with
  | refl => exact ho
  | @tail y z _ hz ih =>
    subst hz
    rcases Int.lt_or_le y 0 with hneg | hpos
    · rw [CharReader.next, SearchBuffer.reader, DecodeStateC.reader_nextc_outside (.inl hneg)]
      simp only []
      omega
    · obtain ⟨y, rfl⟩ := Int.eq_ofNat_of_zero_le hpos
      rcases Nat.lt_or_ge y b.text.length with hlt | hge
      · have hstep := @DecodeStateC.reader_nextc_advances b.state mem _ _ hlt
        rw [SearchBuffer.reader]
        omega
      · rw [CharReader.next, b.nextc_end mem hge]
        exact hstop

variable (b) in
/-- A TAB in the region, where the TABs from there on go on behind it, and are not the end of some spaces. -/
structure SearchBuffer.TabsCross (mem : Uninit) (start stop : Int) (x : Nat) : Prop where
  region : start ≤ x ∧ x < stop
  tab : ((b.reader mem).nextc x).1 = 9
  cross : ∃ e count, (b.reader mem).TabsTo 1 x 0 e count ∧ stop < e ∧
    ∀ n, ¬b.kept stop.toNat e <:+ b.state.charset.spaces n

namespace TabParams

theorem Untabified.eq_drop {out : List UInt8} (h : p.Untabified b stop o col out) (ho : stop ≤ o)
    : out = b.text.drop o := by
  cases h with
  | done => rfl
  | line hlt | char hlt | before hlt | tabs hlt => omega

/-- **TABs that are replaced behind the region change what is there.** -/
theorem Untabified.crosses (hro : b.readOnly = false) (hstop : stop ≤ b.text.length) {out : List UInt8}
    (h : p.Untabified b stop o col out) (hx : (b.reader p.mem).Ahead o x) (hcross : b.TabsCross p.mem p.start stop x)
    (front : List UInt8) :
    ¬b.text.drop stop.toNat <:+ front ++ out := by
  have hstep : ∀ {o e c : Nat}, (b.reader p.mem).nextc o = (c, (e : Int)) → (b.reader p.mem).Ahead o x →
      (x = o ∧ c = 9) ∨ (b.reader p.mem).Ahead e x := by
    intro o e c hread hx
    rcases hx.cases_head with heq | ⟨e', he', hx⟩
    · have hxo : x = o := by omega
      have htab := hcross.tab
      rw [hxo, hread] at htab
      exact .inl ⟨hxo, htab⟩
    · obtain rfl : (e : Int) = e' := by rw [← he', CharReader.next, hread]
      exact .inr hx
  induction h generalizing front with
  | done ho =>
    have hle := b.le_of_ahead hstop ho hx
    exact absurd hcross.region.2 (by omega)
  | line hlt hread hline _ ih =>
    rw [← List.append_assoc]
    exact ih ((hstep hread hx).resolve_left (by omega)) _
  | char hlt hread hline hno _ ih =>
    rw [← List.append_assoc]
    exact ih ((hstep hread hx).resolve_left fun h => hno h.2) _
  | before hlt hread hbefore _ ih =>
    rw [← List.append_assoc]
    exact ih ((hstep hread hx).resolve_left fun h => by have := hcross.region.1; omega) _
  | @tabs o e e' col col' out hlt hread hregion htabs hout ih =>
    have hall : (b.reader p.mem).TabsTo p.tw o (nextTab p.tw col - p.tw) e' col' :=
      .tab hread (by rw [Int.sub_add_cancel]; exact htabs)
    rw [SearchBuffer.rewritten, if_neg (by rw [hro]; exact Bool.false_ne_true), ← List.append_assoc]
    rcases TabsTo.ahead hall hx with hbehind | ⟨col₂, hrest⟩
    · exact ih hbehind _
    · obtain ⟨end₂, count, htabs₂, hend, hno⟩ := hcross.cross
      obtain rfl := TabsTo.unique htabs₂ hrest
      rw [hout.eq_drop hend.le, SearchBuffer.suffix_replaced hend (by omega), cutTabs_suffix hread htabs hlt hend]
      rintro ⟨n, hn⟩
      exact hno n hn

theorem lt_of_nextc (hstop : stop ≤ b.text.length) (hlt : o < stop)
    (hread : (b.reader p.mem).nextc o = (c, (e : Int))) : o < e := by
  obtain ⟨c', e', hread', he'⟩ := b.nextc_inside p.mem (o := o) (by omega)
  rw [hread, Prod.mk.injEq, Nat.cast_inj] at hread'
  omega

/-- **Where no TABs go on behind the region, the text outside it is kept.** -/
theorem Untabified.framed (hstop : stop ≤ b.text.length) {out : List UInt8} (h : p.Untabified b stop o col out)
    (hno : b.readOnly = true ∨ ∀ x : Nat, (b.reader p.mem).Ahead o x → ¬b.TabsCross p.mem p.start stop x) :
    b.Framed p.start stop o out := by
  have hnext : ∀ {o e c : Nat}, (b.reader p.mem).nextc o = (c, (e : Int)) → ∀ {x : Int},
      (b.reader p.mem).Ahead e x → (b.reader p.mem).Ahead o x :=
    fun hread _ hx => .head (by rw [CharReader.next, hread]) hx
  induction h with
  | done => exact .drop _
  | line hlt hread _ hout ih | char hlt hread _ _ hout ih | before hlt hread _ hout ih =>
    exact .keep hlt (lt_of_nextc hstop hlt hread).le (ih (hno.imp_right fun h x hx => h x
      (hnext hread hx))) hout.eq_drop
  | @tabs o e e' col col' out hlt hread hregion htabs hout ih =>
    have he := lt_of_nextc hstop hlt hread
    have hle := le_of_tabsTo htabs
    have hrest := ih (hno.imp_right fun h x hx => h x (hnext hread (TabsTo.reaches htabs |>.trans hx)))
    rw [SearchBuffer.rewritten]
    split
    · exact .keep hlt (by omega) hrest hout.eq_drop
    · rename_i hro
      refine .replace hlt hregion hrest fun hcut => ⟨hout.eq_drop hcut.le, ?_⟩
      by_contra hsuffix
      have hall : (b.reader p.mem).TabsTo p.tw o (nextTab p.tw col - p.tw) e' col' :=
        .tab hread (by rw [Int.sub_add_cancel]; exact htabs)
      obtain ⟨count, hcount⟩ := TabsTo.recount hall 1 0
      refine (hno.resolve_left hro) o .refl ⟨⟨hregion, hlt⟩, by rw [hread], e', count, hcount, hcut, fun n hn => ?_⟩
      exact hsuffix ((List.nil_append _ ▸ cutTabs_suffix hread htabs hlt hcut []).mpr ⟨n, hn⟩)

end TabParams

/-! ## Spaces that end behind the region -/

/-- A character, and the column behind it. -/
def TabParams.advance (p : TabParams) (v : CharReader) (s : Int × Int) : Int × Int :=
  let r := v.nextc s.1
  (r.2, if r.1 = 13 ∨ r.1 = 10 then 0 else if r.1 = 9 then nextTab p.tw s.2 else s.2 + qeWcwidth p.table r.1)

/-- What is read ahead of an offset, with its column. -/
abbrev TabParams.Columns (p : TabParams) (v : CharReader) : Int × Int → Int × Int → Prop :=
  Relation.ReflTransGen fun s s' => p.advance v s = s'

variable (b p stop) in
/-- Two spaces, where the second is the one that reaches a tab stop, and begins before the end of the region and
ends behind it. What is behind the end is not what a TAB ends with. -/
structure SearchBuffer.SpaceCross (y x e : Nat) (col : Int) : Prop where
  first : (b.reader p.mem).nextc y = (32, (x : Int))
  second : (b.reader p.mem).nextc x = (32, (e : Int))
  region : p.start ≤ y ∧ x < stop ∧ stop < e
  column : (col + 1).tmod p.tw ≠ 0 ∧ (col + 1 + 1).tmod p.tw = 0
  cut : ¬b.kept stop.toNat e <:+ b.state.charset.blank 9

namespace TabParams

theorem qeWcwidth_space (table : Nat → Nat) : qeWcwidth table 32 = 1 := if_pos (.inl (by decide))

theorem advance_space (h : v.nextc o = (32, (e : Int))) : p.advance v (o, col) = ((e : Int), col + 1) := by
  simp only [advance, h, qeWcwidth_space]
  rfl

theorem Columns.step (h : v.nextc o = (c, (e : Int))) (hcol : (p.advance v (o, col)).2 = col') {y : Nat} {k : Int}
    (hy : p.Columns v (o, col) (y, k)) :
    y = o ∧ k = col ∨ p.Columns v (e, col') (y, k) := by
  rcases hy.cases_head with heq | ⟨s, hs, hy⟩
  · rw [Prod.mk.injEq, Nat.cast_inj] at heq
    exact .inl ⟨heq.1.symm, heq.2.symm⟩
  · obtain rfl : ((e : Int), col') = s := by
      rw [← hs, ← hcol]
      simp only [advance, h]
    exact .inr hy

/-- The inner loop of `do_tabify` does not step over spaces that end behind the region, but for those that it
replaces. -/
theorem spacesTo_crosses {r : SpaceOutcome} (h : (b.reader p.mem).SpacesTo p.tw stop k col r) {z : Nat} {col₀ : Int}
    (hcol : col₀ + 1 = col) (hfirst : (b.reader p.mem).nextc z = (32, (k : Int))) {y : Nat} {c : Int}
    (hy : p.Columns (b.reader p.mem) (z, col₀) (y, c)) (hcross : b.SpaceCross p stop y x e c) :
    p.Columns (b.reader p.mem) (r.next.1, r.next.2) (y, c) ∨ ∃ col', r = .full e col' := by
  have hthen : ∀ {z k : Nat}, (b.reader p.mem).nextc z = (32, (k : Int)) → y = z → x = k := by
    rintro z k hfirst rfl
    have hx := hcross.first.symm.trans hfirst
    rw [Prod.mk.injEq, Nat.cast_inj] at hx
    exact hx.2
  have hsecond : ∀ {x' c' e' : Nat}, (b.reader p.mem).nextc x' = (c', (e' : Int)) → x = x' → c' = 32 ∧ e' = e := by
    rintro x' c' e' hread rfl
    have he := hread.symm.trans hcross.second
    rw [Prod.mk.injEq, Nat.cast_inj] at he
    exact he
  induction h generalizing z col₀ with
  | @outside k col hout =>
    refine .inl ((Columns.step hfirst ((congrArg Prod.snd (advance_space hfirst)).trans hcol) hy).resolve_left fun h => ?_)
    have hxk := hthen hfirst h.1
    have := hcross.region.2.1
    omega
  | @other k c' e' col hlt hread hspace =>
    refine .inl ((Columns.step hfirst ((congrArg Prod.snd (advance_space hfirst)).trans hcol) hy).resolve_left fun h => ?_)
    exact hspace (hsecond hread (hthen hfirst h.1)).1
  | @tab k e' col hlt hread =>
    have hrest := (Columns.step hfirst ((congrArg Prod.snd (advance_space hfirst)).trans hcol) hy).resolve_left
      fun h => absurd (hsecond hread (hthen hfirst h.1)).1 (by decide)
    refine .inl ((Columns.step hread (by rw [advance, hread]; rfl) hrest).resolve_left fun h => ?_)
    have hx := hcross.first.symm.trans (h.1 ▸ hread)
    rw [Prod.mk.injEq] at hx
    exact absurd hx.1 (by decide)
  | @full k e' col hlt hread hfull =>
    rcases Columns.step hfirst ((congrArg Prod.snd (advance_space hfirst)).trans hcol) hy with h | hrest
    · exact .inr ⟨_, by rw [(hsecond hread (hthen hfirst h.1)).2]⟩
    · refine .inl ((Columns.step hread (congrArg Prod.snd (advance_space hread)) hrest).resolve_left fun h => ?_)
      exact hcross.column.1 (h.2 ▸ hfull)
  | @space k e' col r hlt hread hfull _ ih =>
    have hrest := (Columns.step hfirst ((congrArg Prod.snd (advance_space hfirst)).trans hcol) hy).resolve_left
      fun h => hfull (by rw [← hcol, ← h.2]; exact hcross.column.2)
    exact ih rfl hread hrest

theorem spacesTo_reaches {r : SpaceOutcome} (h : (b.reader p.mem).SpacesTo p.tw stop k col r) {z : Nat} {col₀ : Int}
    (hcol : col₀ + 1 = col) (hfirst : (b.reader p.mem).nextc z = (32, (k : Int))) (hfull : col.tmod p.tw ≠ 0) :
    p.Columns (b.reader p.mem) (z, col₀) (r.next.1, r.next.2) ∧ ∀ e col', r = .full e col' → ∃ (y x : Nat) (c : Int),
      p.Columns (b.reader p.mem) (z, col₀) (y, c) ∧ z ≤ y ∧ (b.reader p.mem).nextc y = (32, (x : Int)) ∧
        (b.reader p.mem).nextc x = (32, (e : Int)) ∧ x < stop ∧ (c + 1).tmod p.tw ≠ 0 ∧ (c + 1 + 1).tmod p.tw = 0 := by
  have hspace : ∀ {o e : Nat} {col : Int}, (b.reader p.mem).nextc o = (32, (e : Int)) →
      p.Columns (b.reader p.mem) (o, col) (e, col + 1) := fun h => .single (advance_space h)
  induction h generalizing z col₀ with
  | outside | other => exact ⟨hcol ▸ hspace hfirst, fun _ _ h => by cases h⟩
  | tab hlt hread =>
    refine ⟨(hcol ▸ hspace hfirst).tail ?_, fun _ _ h => by cases h⟩
    rw [advance, hread]
    rfl
  | @full k e col hlt hread hfull' =>
    refine ⟨(hcol ▸ hspace hfirst).trans (hspace hread), ?_⟩
    rintro _ _ ⟨⟩
    exact ⟨z, k, col₀, .refl, Nat.le_refl _, hfirst, hread, hlt, hcol ▸ hfull, hcol ▸ hfull'⟩
  | @space k e col r hlt hread hfull' _ ih =>
    obtain ⟨hreach, hlast⟩ := ih rfl hread hfull'
    refine ⟨(hcol ▸ hspace hfirst).trans hreach, fun e' col' hr => ?_⟩
    obtain ⟨y, x, c, hy, hle, hrest⟩ := hlast e' col' hr
    have hlt' := (lt_of_tab hfirst (by decide)).2
    exact ⟨y, x, c, (hcol ▸ hspace hfirst).trans hy, by omega, hrest⟩

theorem spacesTo_tab {r : SpaceOutcome} (h : (b.reader p.mem).SpacesTo p.tw stop k col r) (hr : r = .tab o e col') :
    k ≤ o ∧ o < stop ∧ (b.reader p.mem).nextc o = (9, (e : Int)) := by
  induction h with
  | outside | other | full => cases hr
  | tab hlt hread =>
    cases hr
    exact ⟨Nat.le_refl _, hlt, hread⟩
  | space hlt hread _ _ ih =>
    obtain ⟨hle, hrest⟩ := ih hr
    exact ⟨Nat.le_trans (lt_of_tab hread (by decide)).2.le hle, hrest⟩

/-- Behind a space that has been replaced, what is left of it is not what a TAB ends with, or it is all that is left. -/
theorem cutSpace_suffix (hread : (b.reader p.mem).nextc x = (32, (e : Int))) (hlt : x < stop) (hcut : stop < e)
    (front : List UInt8) :
    b.kept stop.toNat e <:+ front ++ b.state.charset.blank 9 ↔ b.kept stop.toNat e <:+ b.state.charset.blank 9 := by
  refine ⟨fun h => ?_, fun h => h.trans (List.suffix_append _ _)⟩
  have hx := (lt_of_tab hread (by decide)).1
  obtain ⟨hunit, hlast⟩ := nextc_blank hx hread (.inr rfl)
  by_cases hutf8 : b.state.charset.HasUtf8
  · obtain ⟨-, y, hy, hbyte⟩ := hlast hutf8
    have hends := SearchBuffer.getLast?_kept (b := b) (o := stop.toNat) (e := e) (by omega) hy
    obtain ⟨rest, hrest⟩ := h
    have hsame := congrArg List.getLast? hrest
    rw [List.getLast?_append, hends, Option.some_or, hutf8.blank (.inl rfl), List.getLast?_append] at hsame
    obtain rfl : y = 9 := Option.some.inj hsame
    exact absurd hbyte (by decide)
  · refine List.suffix_of_suffix_length_le h (List.suffix_append _ _) ?_
    have hsize := hunit hutf8
    rw [CharsetC.length_blank_unit hutf8 (.inl rfl), SearchBuffer.kept, List.length_take]
    omega

theorem Tabified.eq_drop {out : List UInt8} (h : p.Tabified b stop o col out) (ho : stop ≤ o)
    : out = b.text.drop o := by
  cases h with
  | done => rfl
  | line hlt | tab hlt | char hlt | spaces hlt => omega

theorem Columns.ahead {s s' : Int × Int} (h : p.Columns v s s') : v.Ahead s.1 s'.1 :=
  h.lift Prod.fst fun s s' (hs : p.advance v s = s') => hs ▸ rfl

/-- **A space that is replaced behind the region changes what is there.** -/
theorem Tabified.crosses (hro : b.readOnly = false) (hstop : stop ≤ b.text.length) {out : List UInt8}
    (h : p.Tabified b stop o col out) {y : Nat} {c : Int} (hy : p.Columns (b.reader p.mem) (o, col) (y, c))
    (hcross : b.SpaceCross p stop y x e c) (front : List UInt8) :
    ¬b.text.drop stop.toNat <:+ front ++ out := by
  have hreads : ∀ {o e' c' : Nat}, (b.reader p.mem).nextc o = (c', (e' : Int)) → y = o → c' = 32 := by
    rintro o e' c' hread rfl
    exact (congrArg Prod.fst (hread.symm.trans hcross.first) : _)
  induction h generalizing front with
  | @done o col ho =>
    have hle := b.le_of_ahead hstop ho (Columns.ahead hy)
    have hlt := (lt_of_tab hcross.first (by decide)).2
    have hregion := hcross.region.2.1
    exact absurd hregion (by simp only [] at hle; omega)
  | @line o e' c' col out hlt hread hline _ ih =>
    rw [← List.append_assoc]
    refine ih ((Columns.step hread ?_ hy).resolve_left fun h => ?_) _
    · simp only [advance, hread, if_pos hline]
    · have := hreads hread h.1
      omega
  | @tab o e' col out hlt hread _ ih =>
    rw [← List.append_assoc]
    refine ih ((Columns.step hread ?_ hy).resolve_left fun h => absurd (hreads hread h.1) (by decide)) _
    rw [advance, hread]
    rfl
  | @char o e' c' col out hlt hread hline htab hchar _ ih =>
    rw [← List.append_assoc]
    refine ih ((Columns.step hread ?_ hy).resolve_left fun h => ?_) _
    · simp only [advance, hread, if_neg hline, if_neg htab]
    · obtain rfl := hreads hread h.1
      rcases hchar with hchar | hchar | hchar
      · exact hchar rfl
      · have := hcross.region.1
        omega
      · rw [qeWcwidth_space, ← h.2] at hchar
        exact hcross.column.1 hchar
  | @spaces o e' col r out hlt hread hregion hfull hspaces hout ih =>
    rw [← List.append_assoc]
    rcases spacesTo_crosses hspaces (by rw [qeWcwidth_space]; rfl) hread hy hcross with hbehind | ⟨col', rfl⟩
    · exact ih hbehind _
    · have hcut := hcross.region.2
      rw [hout.eq_drop hcut.2.le, SpaceOutcome.piece, SearchBuffer.rewritten,
        if_neg (by rw [hro]; exact Bool.false_ne_true), SpaceOutcome.next,
        SearchBuffer.suffix_replaced hcut.2 (by omega), cutSpace_suffix hcross.second hcut.1 hcut.2]
      exact hcross.cut

/-- **Where no space is replaced behind the region, the text outside it is kept.** -/
theorem Tabified.framed (hstop : stop ≤ b.text.length) {out : List UInt8} (h : p.Tabified b stop o col out)
    (hno : b.readOnly = true ∨ ∀ (y x e : Nat) (c : Int),
      p.Columns (b.reader p.mem) (o, col) (y, c) → ¬b.SpaceCross p stop y x e c) :
    b.Framed p.start stop o out := by
  have hnext : ∀ {s s' : Int × Int}, p.Columns (b.reader p.mem) s s' → (b.readOnly = true ∨
      ∀ (y x e : Nat) (c : Int), p.Columns (b.reader p.mem) s (y, c) → ¬b.SpaceCross p stop y x e c) →
      b.readOnly = true ∨ ∀ (y x e : Nat) (c : Int),
        p.Columns (b.reader p.mem) s' (y, c) → ¬b.SpaceCross p stop y x e c :=
    fun hs hno => hno.imp_right fun h y x e c hy => h y x e c (hs.trans hy)
  induction h with
  | done => exact .drop _
  | @line o e' c' col out hlt hread hline hout ih =>
    refine .keep hlt (lt_of_nextc hstop hlt hread).le (ih (hnext (.single ?_) hno)) hout.eq_drop
    simp only [advance, hread, if_pos hline]
  | @tab o e' col out hlt hread hout ih =>
    refine .keep hlt (lt_of_nextc hstop hlt hread).le (ih (hnext (.single ?_) hno)) hout.eq_drop
    rw [advance, hread]
    rfl
  | @char o e' c' col out hlt hread hline htab hchar hout ih =>
    refine .keep hlt (lt_of_nextc hstop hlt hread).le (ih (hnext (.single ?_) hno)) hout.eq_drop
    simp only [advance, hread, if_neg hline, if_neg htab]
  | @spaces o e' col r out hlt hread hregion hfull hspaces hout ih =>
    have he := lt_of_nextc hstop hlt hread
    have hle := le_of_spacesTo hspaces
    obtain ⟨hreach, hlast⟩ := spacesTo_reaches hspaces (by rw [qeWcwidth_space]; rfl) hread hfull
    have hrest := ih (hnext hreach hno)
    cases r with
    | stays e col' => exact .keep hlt (Nat.le_trans he.le hle) hrest hout.eq_drop
    | tab o₁ e col' =>
      obtain ⟨hle₁, hlt₁, htab⟩ := spacesTo_tab hspaces rfl
      have he₁ := lt_of_nextc hstop hlt₁ htab
      rw [SpaceOutcome.piece, SearchBuffer.rewritten]
      split
      · rw [SearchBuffer.kept_append_kept (Nat.le_trans he.le hle₁) he₁.le]
        exact .keep hlt (Nat.le_trans he.le hle) hrest hout.eq_drop
      · rw [List.append_assoc]
        exact .replace hlt hregion (.keep hlt₁ he₁.le hrest hout.eq_drop) fun hcut => absurd hcut (by omega)
    | full e col' =>
      rw [SpaceOutcome.piece, SearchBuffer.rewritten]
      split
      · exact .keep hlt (Nat.le_trans he.le hle) hrest hout.eq_drop
      · rename_i hro
        refine .replace hlt hregion hrest fun hcut => ⟨hout.eq_drop hcut.le, ?_⟩
        by_contra hsuffix
        obtain ⟨y, x, c, hy, hzy, hfirst, hsecond, hx, hcols⟩ := hlast e col' rfl
        exact (hno.resolve_left hro) y x e c hy ⟨hfirst, hsecond, ⟨by omega, hx, hcut⟩, hcols, hsuffix⟩

end TabParams

end Cross

/-! ## The commands -/

section Commands

variable (b : SearchBuffer) (mem : Uninit) (table : Nat → Nat) (tabWidth p1 p2 : Int)

/-- The command ends, and outside the region every byte is what it was. -/
def SearchBuffer.KeepsOutside (result : Option SearchBuffer) : Prop :=
  ∃ b' mid, result = some b' ∧ b'.text = b.text.take (min p1 p2).toNat ++ mid ++ b.text.drop (max p1 p2).toNat

/-- No TABs in the region go on behind it. -/
def SearchBuffer.TabsInside : Prop :=
  b.readOnly = true ∨ ∀ x : Nat, (b.reader mem).Ahead (b.tabStart mem p1 p2) x →
    ¬b.TabsCross mem (b.tabRange p1 p2).1 (b.tabRange p1 p2).2 x

/-- No space that reaches a tab stop begins in the region and ends behind it. -/
def SearchBuffer.SpacesInside : Prop :=
  b.readOnly = true ∨ ∀ (y x e : Nat) (col : Int),
    TabParams.Columns ⟨mem, table, tabWidth, (b.tabRange p1 p2).1⟩ (b.reader mem) (b.tabStart mem p1 p2, 0) (y, col) →
      ¬b.SpaceCross ⟨mem, table, tabWidth, (b.tabRange p1 p2).1⟩ (b.tabRange p1 p2).2 y x e col

variable {b mem p1 p2}

theorem SearchBuffer.drop_stop : b.text.drop (b.tabRange p1 p2).2.toNat = b.text.drop (max p1 p2).toNat := by
  rw [tabRange]
  rcases Int.le_total (b.text.length : Int) (max p1 p2) with h | h
  · rw [Int.min_eq_left h, Int.toNat_natCast, List.drop_length, List.drop_eq_nil_of_le (by omega)]
  · rw [Int.min_eq_right h]

theorem SearchBuffer.keepsOutside_of_framed {out : List UInt8}
    (h : b.Framed (b.tabRange p1 p2).1 (b.tabRange p1 p2).2 (b.tabStart mem p1 p2) out) :
    b.KeepsOutside p1 p2 (some { b with text := b.text.take (b.tabStart mem p1 p2) ++ out }) := by
  obtain ⟨mid, rfl⟩ := h
  have hle : b.tabStart mem p1 p2 ≤ (b.tabRange p1 p2).1.toNat := by
    have := (b.tabStart_le mem p1 p2).2
    omega
  have hstart : (b.tabRange p1 p2).1.toNat = (min p1 p2).toNat := by
    rw [tabRange]
    omega
  have hend : b.text.drop (max (b.tabRange p1 p2).1.toNat (b.tabRange p1 p2).2.toNat)
      = b.text.drop (max p1 p2).toNat := by
    rcases Nat.le_total (b.tabRange p1 p2).1.toNat (b.tabRange p1 p2).2.toNat with h | h
    · rw [Nat.max_eq_right h, drop_stop]
    · rw [Nat.max_eq_left h, ← drop_stop]
      rcases Nat.lt_or_ge (b.tabRange p1 p2).2.toNat b.text.length with hin | hout
      · rw [show (b.tabRange p1 p2).1.toNat = (b.tabRange p1 p2).2.toNat by rw [tabRange] at h hin ⊢; omega]
      · rw [List.drop_eq_nil_of_le hout, List.drop_eq_nil_of_le (Nat.le_trans hout h)]
  refine ⟨_, mid, rfl, ?_⟩
  have hfront : b.text.take (b.tabStart mem p1 p2) ++ b.kept (b.tabStart mem p1 p2) (b.tabRange p1 p2).1.toNat
      = b.text.take (b.tabRange p1 p2).1.toNat := by
    have hall := kept_append_kept (b := b) (Nat.zero_le _) hle
    simpa only [kept, List.drop_zero, Nat.sub_zero] using hall
  rw [Nat.max_eq_right hle, hend, ← List.append_assoc, ← List.append_assoc, hfront, hstart]

theorem SearchBuffer.suffix_of_keepsOutside {text : List UInt8}
    (h : b.KeepsOutside p1 p2 (some { b with text := text })) :
    b.text.drop (b.tabRange p1 p2).2.toNat <:+ text := by
  obtain ⟨b', mid, hb', htext⟩ := h
  obtain rfl := Option.some.inj hb'
  rw [drop_stop]
  exact ⟨_, htext.symm⟩

variable (b mem p1 p2)

/-- **The TABs and spaces that are converted are in the region, byte for byte, if no TAB or space that is converted
is behind it.** -/
theorem convert_tabs_region_iff :
    (b.KeepsOutside p1 p2 (b.doUntabify mem table tabWidth p1 p2) ↔ b.TabsInside mem p1 p2) ∧
      (b.KeepsOutside p1 p2 (b.doTabify mem table tabWidth p1 p2) ↔ b.SpacesInside mem table tabWidth p1 p2) := by
  have hstop : (b.tabRange p1 p2).2 ≤ b.text.length := Int.min_le_left _ _
  constructor
  · obtain ⟨out, hout, heq⟩ := b.doUntabify_eq mem p1 p2 table tabWidth
    rw [heq]
    refine ⟨fun h => ?_, fun h => SearchBuffer.keepsOutside_of_framed (hout.framed hstop h)⟩
    have hsuffix := SearchBuffer.suffix_of_keepsOutside h
    refine or_iff_not_imp_left.mpr fun hro x hx hcross => ?_
    exact hout.crosses (Bool.eq_false_of_not_eq_true hro) hstop hx hcross _ hsuffix
  · obtain ⟨out, hout, heq⟩ := b.doTabify_eq mem p1 p2 table tabWidth
    rw [heq]
    refine ⟨fun h => ?_, fun h => SearchBuffer.keepsOutside_of_framed (hout.framed hstop h)⟩
    have hsuffix := SearchBuffer.suffix_of_keepsOutside h
    refine or_iff_not_imp_left.mpr fun hro y x e col hy hcross => ?_
    exact hout.crosses (Bool.eq_false_of_not_eq_true hro) hstop hy hcross _ hsuffix

/-- With the end of the region between two TABs, the TAB behind it becomes spaces. -/
theorem untabify_behind_region :
    ¬∀ (b : SearchBuffer) (mem : Uninit) (table : Nat → Nat) (tabWidth p1 p2 : Int),
      b.KeepsOutside p1 p2 (b.doUntabify mem table tabWidth p1 p2) := by
  intro h
  have hrun : SearchBuffer.doUntabify ⟨⟨.narrow .utf8, .unix⟩, false, false, [97, 9, 9, 98]⟩ (fun _ => 0)
      (fun _ => 1) 4 0 2 = some ⟨⟨.narrow .utf8, .unix⟩, false, false, [97, 32, 32, 32, 32, 32, 32, 32, 98]⟩ := by
    rfl
  have hkeeps := h ⟨⟨.narrow .utf8, .unix⟩, false, false, [97, 9, 9, 98]⟩ (fun _ => 0) (fun _ => 1) 4 0 2
  rw [hrun] at hkeeps
  exact absurd (SearchBuffer.suffix_of_keepsOutside hkeeps) (by decide)

end Commands

end Qemacs
