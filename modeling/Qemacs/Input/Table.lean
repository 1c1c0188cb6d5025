import Qemacs.Input.Section
import Mathlib.Data.List.Dedup

/-!
# The start table

With a start table, the entries are written in the order of their first bytes, and the table has the
offset of each section. Without one, all entries are one section.
-/

namespace Qemacs

open Lib

/-! ## Sections -/

/-- The entries whose input starts with `b`. -/
def sectionOf (b : UInt8) (ips : List InputEntry) : List InputEntry :=
  ips.filter fun ip => ip.input0 = b

theorem genLoop_plain {form : MapForm} (htable : form.genTable = false) :
    ∀ (ips : List InputEntry) (last offset : Nat) (lastInput0 : UInt8),
      genLoop form ips last lastInput0 offset = (putSection form last ips ++ [0], []) := by
  intro ips
  induction ips with
  | nil => intro last offset lastInput0; rfl
  | cons ip ips ih =>
    intro last offset lastInput0
    rw [genLoop, if_neg fun h => Bool.false_ne_true (htable.symm.trans h.1)]
    dsimp only
    rw [ih, putSection, List.append_assoc]

/-- The bytes of a map with a start table, `offset` bytes having been written, in a section whose first
byte is `b`. -/
structure Sectioned (form : MapForm) (ips : List InputEntry) (last : Nat) (b : UInt8) (offset : Nat)
    (g : List UInt8 × List (UInt8 × Nat)) : Prop where
  rest : b ≠ 0 → ∃ more, g.1 = putSection form last (sectionOf b ips) ++ 0 :: more
  sections : ∀ s ∈ g.2, b < s.1 ∧ offset ≤ s.2 ∧ s.2 ≤ offset + g.1.length ∧
    ∃ more, g.1.drop (s.2 - offset) = putSection form 0 (sectionOf s.1 ips) ++ 0 :: more
  starts : ∀ c, c ∈ g.2.map Prod.fst ↔ c ≠ b ∧ ∃ ip ∈ ips, ip.input0 = c
  distinct : (g.2.map Prod.fst).Nodup

theorem sectionOf_cons_self (ip : InputEntry) (ips : List InputEntry) :
    sectionOf ip.input0 (ip :: ips) = ip :: sectionOf ip.input0 ips :=
  List.filter_cons_of_pos (decide_eq_true rfl)

theorem sectionOf_cons_ne {ip : InputEntry} {b : UInt8} (h : ip.input0 ≠ b) (ips : List InputEntry) :
    sectionOf b (ip :: ips) = sectionOf b ips :=
  List.filter_cons_of_neg fun hx => h (of_decide_eq_true hx)

theorem sectionOf_eq_nil {b : UInt8} {ips : List InputEntry} (h : ∀ ip ∈ ips, ip.input0 ≠ b) :
    sectionOf b ips = [] :=
  List.filter_eq_nil_iff.mpr fun ip hip hx => h ip hip (of_decide_eq_true hx)

theorem genLoop_sectioned {form : MapForm} (htable : form.genTable = true) :
    ∀ (ips : List InputEntry) (last : Nat) (b : UInt8) (offset : Nat),
      ips.Pairwise (fun x y => x.input0 ≤ y.input0) → (∀ ip ∈ ips, b ≤ ip.input0 ∧ ip.input0 ≠ 0) →
      Sectioned form ips last b offset (genLoop form ips last b offset) := by
  intro ips
  induction ips with
  | nil =>
    intro last b offset _ _
    exact {
      rest := fun _ => ⟨[], rfl⟩
      sections := fun s hs => absurd hs List.not_mem_nil
      starts := fun c => ⟨fun hc => absurd hc List.not_mem_nil, fun hc => by
        obtain ⟨_, ip, hip, _⟩ := hc
        exact absurd hip List.not_mem_nil⟩
      distinct := List.nodup_nil }
  | cons ip ips ih =>
    intro last b offset hsorted hall
    obtain ⟨hfirst, hsorted'⟩ := List.pairwise_cons.mp hsorted
    obtain ⟨hle, hnz⟩ := hall ip List.mem_cons_self
    have hall' : ∀ ip' ∈ ips, ip.input0 ≤ ip'.input0 ∧ ip'.input0 ≠ 0 := fun ip' hip =>
      ⟨hfirst ip' hip, (hall ip' (List.mem_cons_of_mem ip hip)).2⟩
    -- the sections of the entries behind `ip`, which are written behind `bytes`
    have hlater : ∀ {last start : Nat} {bytes : List UInt8} {g : List UInt8 × List (UInt8 × Nat)},
        Sectioned form ips last ip.input0 start g → start = offset + bytes.length → ∀ s ∈ g.2,
        b < s.1 ∧ offset ≤ s.2 ∧ s.2 ≤ offset + (bytes ++ g.1).length ∧
          ∃ more, (bytes ++ g.1).drop (s.2 - offset)
            = putSection form 0 (sectionOf s.1 (ip :: ips)) ++ 0 :: more := by
      intro last start bytes g hg hstart s hs
      obtain ⟨hlt, hge, hbound, more, hmore⟩ := hg.sections s hs
      refine ⟨UInt8.lt_of_le_of_lt hle hlt, by omega, by rw [List.length_append]; omega, more, ?_⟩
      rw [sectionOf_cons_ne (UInt8.ne_of_lt hlt), ← hmore, List.drop_append,
        List.drop_eq_nil_of_le (by omega), List.nil_append]
      congr 1
      omega
    rw [genLoop]
    by_cases hb : b ≠ ip.input0
    · rw [if_pos ⟨htable, hb⟩]
      set close : List UInt8 := if b ≠ 0 then [0] else [] with hclose
      have hg := ih ip.output0 ip.input0 (offset + close.length + (putEntry form 0 ip).length) hsorted' hall'
      dsimp only
      set g := genLoop form ips ip.output0 ip.input0 (offset + close.length + (putEntry form 0 ip).length)
      exact {
        rest := by
          intro hb0
          rw [sectionOf_eq_nil fun ip' hip => ?_]
          · exact ⟨putEntry form 0 ip ++ g.1, by rw [hclose, if_pos hb0]; rfl⟩
          · rcases List.mem_cons.mp hip with rfl | hip
            · exact hb.symm
            · exact fun heq => hb (UInt8.le_antisymm hle (heq ▸ hfirst ip' hip))
        sections := by
          intro s hs
          rcases List.mem_cons.mp hs with rfl | hs
          · obtain ⟨more, hmore⟩ := hg.rest hnz
            refine ⟨UInt8.lt_of_le_of_ne hle hb, Nat.le_add_right _ _, ?_, more, ?_⟩
            · simp only [List.length_append]
              omega
            · rw [Nat.add_sub_cancel_left, List.append_assoc, List.drop_left, hmore, sectionOf_cons_self,
                putSection, List.append_assoc]
          · exact hlater hg (by rw [List.length_append]; omega) s hs
        starts := by
          intro c
          rw [List.map_cons, List.mem_cons, hg.starts c]
          constructor
          · rintro (rfl | ⟨hc, ip', hip, rfl⟩)
            · exact ⟨hb.symm, ip, List.mem_cons_self, rfl⟩
            · exact ⟨fun heq => hb (UInt8.le_antisymm hle (heq ▸ hfirst ip' hip)), ip',
                List.mem_cons_of_mem ip hip, rfl⟩
          · rintro ⟨_, ip', hip, rfl⟩
            by_cases hc : ip'.input0 = ip.input0
            · exact .inl hc
            · rcases List.mem_cons.mp hip with rfl | hip
              · exact absurd rfl hc
              · exact .inr ⟨hc, ip', hip, rfl⟩
        distinct := List.nodup_cons.mpr ⟨fun hmem => ((hg.starts _).mp hmem).1 rfl, hg.distinct⟩ }
    · rw [if_neg fun h => hb h.2]
      obtain rfl : b = ip.input0 := Decidable.not_not.mp hb
      have hg := ih ip.output0 ip.input0 (offset + (putEntry form last ip).length) hsorted' hall'
      dsimp only
      set g := genLoop form ips ip.output0 ip.input0 (offset + (putEntry form last ip).length)
      exact {
        rest := by
          intro hb0
          obtain ⟨more, hmore⟩ := hg.rest hb0
          exact ⟨more, by rw [sectionOf_cons_self, putSection, List.append_assoc, hmore]⟩
        sections := fun s hs => hlater hg rfl s hs
        starts := by
          intro c
          rw [hg.starts c]
          constructor
          · rintro ⟨hc, ip', hip, rfl⟩
            exact ⟨hc, ip', List.mem_cons_of_mem ip hip, rfl⟩
          · rintro ⟨hc, ip', hip, rfl⟩
            rcases List.mem_cons.mp hip with rfl | hip
            · exact absurd rfl hc
            · exact ⟨hc, ip', hip, rfl⟩
        distinct := hg.distinct }

end Qemacs
