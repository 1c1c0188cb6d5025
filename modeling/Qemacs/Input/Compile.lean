import Qemacs.Input.Table
import Mathlib.Data.List.Perm.Subperm

/-!
# Compiled maps

`kmap_input`, on what `kmaptoqe` writes for a map, gives the map's answer to what has been typed. This
is so unless the map, with a start table and without its trailing spaces, has a space alone for an input:
nothing of that input is written, and where its output is not written either the reader never sees it,
and takes it for two spaces elsewhere.
-/

namespace Qemacs

open Lib

/-! ## Sorting -/

theorem sortFunc_trans (genTable : Bool) (a b c : InputEntry) (hab : sortFunc genTable a b ≤ 0)
    (hbc : sortFunc genTable b c ≤ 0) : sortFunc genTable a c ≤ 0 := by
  unfold sortFunc at hab hbc ⊢
  cases genTable <;> dsimp only at hab hbc ⊢ <;> split_ifs at hab hbc ⊢ <;> omega

theorem sortFunc_total (genTable : Bool) (a b : InputEntry) :
    sortFunc genTable a b ≤ 0 ∨ sortFunc genTable b a ≤ 0 := by
  unfold sortFunc
  cases genTable <;> dsimp only <;> split_ifs <;> omega

variable {ip : InputEntry}

theorem mem_sortInputs {genTable : Bool} {inputs : List InputEntry} :
    ip ∈ sortInputs genTable inputs ↔ ip ∈ inputs := List.mem_mergeSort

theorem input0_le_of_sortFunc {x y : InputEntry} (h : sortFunc true x y ≤ 0) : x.input0 ≤ y.input0 := by
  rw [UInt8.le_iff_toNat_le]
  unfold sortFunc at h
  dsimp only at h
  rw [if_pos rfl] at h
  by_cases hval : (x.input0.toNat : Int) - y.input0.toNat ≠ 0
  · rw [if_pos hval] at h
    omega
  · omega

/-- With a start table, the entries are in the order of their first bytes. -/
theorem sortInputs_input0 (inputs : List InputEntry) :
    (sortInputs true inputs).Pairwise fun x y => x.input0 ≤ y.input0 := by
  have hsorted : (sortInputs true inputs).Pairwise fun x y => decide (sortFunc true x y ≤ 0) = true :=
    List.pairwise_mergeSort
      (fun a b c hab hbc => decide_eq_true
        (sortFunc_trans true a b c (of_decide_eq_true hab) (of_decide_eq_true hbc)))
      (fun a b => by
        rw [Bool.or_eq_true_iff, decide_eq_true_iff, decide_eq_true_iff]
        exact sortFunc_total true a b) inputs
  exact hsorted.imp fun hxy => input0_le_of_sortFunc (of_decide_eq_true hxy)

/-! ## The size of a map -/

theorem length_putInput_le (c d : UInt8) : (putInput c d).length ≤ 3 := by
  unfold putInput
  split
  · exact Nat.le_of_ble_eq_true rfl
  · exact Nat.le_refl _

theorem length_putInputs_le (unit : Bool) : ∀ input : List UInt8,
    (putInputs unit input).length ≤ 3 * input.length := by
  intro input
  induction input with
  | nil => exact Nat.le_refl _
  | cons c input ih =>
    cases input with
    | nil => exact length_putInput_le _ _
    | cons d input =>
      have hone := length_putInput_le c 0
      rw [putInputs, List.length_append, List.length_cons]
      omega

theorem length_putOutput_le (form : MapForm) (hout : ip.HasOutput) (delta : Int) :
    (putOutput form delta ip).length ≤ 42 := by
  have hextra := length_putExtra ip.output
  unfold putExtra at hextra
  have hrange := hout.2
  have hword : (putWord ip.output0).length = 2 := rfl
  unfold putOutput
  split
  · rw [List.length_append, List.length_cons, hextra]
    split
    · rw [List.length_cons, hword]
      omega
    · rw [List.length_nil]
      omega
  · dsimp only
    split_ifs <;> simp [hword]

theorem length_putEntry_le (form : MapForm) (hin : ip.input.length ≤ 20) (hout : ip.HasOutput) (last : Nat)
    : (putEntry form last ip).length ≤ 102 := by
  have hlen : (form.written ip).length ≤ 20 := by
    unfold MapForm.written
    rw [List.length_drop, List.length_take]
    omega
  unfold putEntry
  dsimp only
  rw [← MapForm.written, List.length_append]
  have h1 := length_putInputs_le (decide ((ip.output0 : Int) - last = 1 ∧ ip.output.length = 1))
    (form.written ip)
  have h2 := length_putOutput_le form hout ((ip.output0 : Int) - last)
  omega

theorem length_genLoop_le (form : MapForm) : ∀ (ips : List InputEntry),
    (∀ ip ∈ ips, ip.input.length ≤ 20 ∧ ip.HasOutput) → ∀ (last : Nat) (b : UInt8) (offset : Nat),
    (genLoop form ips last b offset).1.length ≤ 103 * ips.length + 1 := by
  intro ips
  induction ips with
  | nil => intro _ last b offset; exact Nat.le_refl _
  | cons ip ips ih =>
    intro hall last b offset
    obtain ⟨hin, hout⟩ := hall ip List.mem_cons_self
    have hrest := ih fun ip' hip => hall ip' (List.mem_cons_of_mem ip hip)
    rw [genLoop, List.length_cons]
    split
    · have hentry := length_putEntry_le form hin hout 0
      have hclose : (if b ≠ 0 then [0] else [] : List UInt8).length ≤ 1 := by split <;> simp
      dsimp only
      rw [List.length_append, List.length_append]
      have := hrest ip.output0 ip.input0
        (offset + (if b ≠ 0 then [0] else [] : List UInt8).length + (putEntry form 0 ip).length)
      omega
    · have hentry := length_putEntry_le form hin hout last
      dsimp only
      rw [List.length_append]
      have := hrest ip.output0 b (offset + (putEntry form last ip).length)
      omega

/-! ## The search for a section -/

theorem findStart_putStart (c : Nat) (r : List UInt8) : ∀ (starts : List (UInt8 × Nat)),
    (∀ s ∈ starts, s.2 < 2 ^ 24) → findStart c starts.length (starts.flatMap putStart ++ r) =
      some ((starts.find? fun s => c = s.1.toNat).map Prod.snd) := by
  intro starts
  induction starts with
  | nil => intro _; rfl
  | cons s starts ih =>
    intro hall
    have hs := hall s List.mem_cons_self
    have hoff : ((UInt8.ofNat (s.2 >>> 16)).toNat <<< 16) + ((UInt8.ofNat (s.2 >>> 8)).toNat <<< 8) +
        (UInt8.ofNat s.2).toNat = s.2 := by
      rw [UInt8.toNat_ofNat', UInt8.toNat_ofNat', UInt8.toNat_ofNat', Nat.shiftLeft_eq, Nat.shiftLeft_eq,
        Nat.shiftRight_eq_div_pow, Nat.shiftRight_eq_div_pow]
      omega
    rw [List.flatMap_cons, List.append_assoc, List.length_cons, List.find?_cons]
    change (if c = s.1.toNat then some (some _) else findStart c starts.length _) = _
    by_cases hc : c = s.1.toNat
    · rw [if_pos hc, hoff, decide_eq_true hc]
      rfl
    · rw [if_neg hc, decide_eq_false hc]
      exact ih fun s' hs' => hall s' (List.mem_cons_of_mem s hs')

/-- The byte before a map tells the number of sections, and whether the trailing space is left out. -/
theorem map_head {n : Nat} (hn : n ≤ 127) (cj : Bool) :
    (UInt8.ofNat (n ||| (if cj then 0x80 else 0)) &&& 0x7f).toNat = n ∧
      decide (UInt8.ofNat (n ||| (if cj then 0x80 else 0)) &&& 0x80 ≠ 0) = cj := by
  have hall : ∀ (n : Fin 128) (cj : Bool),
      (UInt8.ofNat (n ||| (if cj then 0x80 else 0)) &&& 0x7f).toNat = n ∧
        decide (UInt8.ofNat (n ||| (if cj then 0x80 else 0)) &&& 0x80 ≠ 0) = cj := by
    decide +kernel
  exact hall ⟨n, Nat.lt_succ_of_le hn⟩ cj

theorem kmapInput_head {n : Nat} (hn : n ≤ 127) (cj : Bool) (p : List UInt8) (matchBufSize : Nat)
    (buf : List Nat) :
    kmapInput matchBufSize (UInt8.ofNat (n ||| (if cj then 0x80 else 0)) :: p) buf =
      if n > 0 then
        (findStart (buf.headD 0) n p).bind fun start => start.elim (some .noMatch) fun start =>
          (kmapLoop buf cj 1 ((p.drop (n * 4 + start)).length + 1) (p.drop (n * 4 + start)) 0 {}).bind
            fun m => m.result matchBufSize buf.length
      else (kmapLoop buf cj 0 (p.length + 1) p 0 {}).bind fun m => m.result matchBufSize buf.length := by
  obtain ⟨hn', hcj⟩ := map_head hn cj
  unfold kmapInput
  rw [List.head?_cons, List.drop_one, List.tail_cons]
  change (if (UInt8.ofNat (n ||| (if cj then 0x80 else 0)) &&& 0x7f).toNat > 0 then _ else _) = _
  rw [hn', hcj]
  split
  · change (findStart (buf.headD 0) n p).bind _ = _
    congr 1
    funext start
    cases start <;> rfl
  · rfl

/-! ## Maps -/

/-- The maps that `kmaptoqe` can be given. Inputs are different and have from 1 to 20 bytes, none of
them 0; outputs have from 1 to 20 characters; a trailing space that is left out is there; there are
not more sections than the start table counts, nor more entries than `NB_MAX`. -/
structure MapForm.Accepts (form : MapForm) (inputs : List InputEntry) : Prop where
  distinct : (inputs.map InputEntry.input).Nodup
  writes : ∀ ip ∈ inputs, form.Writes ip
  short : ∀ ip ∈ inputs, ip.input.length ≤ 20
  nonzero : ∀ ip ∈ inputs, 0 ∉ ip.input
  starts : form.genTable = true → (inputs.map InputEntry.input0).dedup.length ≤ 127
  size : inputs.length ≤ 15000

/-- What a map says to what has been typed. -/
def mapOf (inputs : List InputEntry) : List (List Nat × List UInt16) := inputs.map InputEntry.pair

/-- On the compiled bytes, `kmap_input` gives the answer of the map. -/
def MapForm.Works (form : MapForm) (inputs : List InputEntry) (matchBufSize : Nat) : Prop :=
  ∃ data, compileMap form inputs = some data ∧ ∀ buf ≠ [], ∃ r, IsAnswer (mapOf inputs) buf r ∧
    kmapInput matchBufSize data buf = some (.ofAnswer r)

section Maps

variable {form : MapForm} {inputs : List InputEntry} (h : form.Accepts inputs)

include h

theorem compileMap_eq : compileMap form inputs =
    some (UInt8.ofNat ((genMap form (sortInputs form.genTable inputs)).2.length |||
        (if form.isChineseCj then 0x80 else 0)) ::
      (if form.genTable then (genMap form (sortInputs form.genTable inputs)).2.flatMap putStart else []) ++
        (genMap form (sortInputs form.genTable inputs)).1) := by
  unfold compileMap
  rw [if_neg]
  rintro ⟨hcj, ip, hip, hlast⟩
  exact hlast ((h.writes ip hip).input.2 hcj)

theorem accepts_input0_ne (hip : ip ∈ inputs) : ip.input0 ≠ 0 := by
  have hne := (h.writes ip hip).input.1
  have hnz := h.nonzero ip hip
  unfold InputEntry.input0
  rcases hinput : ip.input with _ | ⟨c, l⟩
  · exact absurd hinput hne
  · rw [hinput] at hnz
    exact fun hc => hnz (hc ▸ List.mem_cons_self)

theorem genMap_sectioned (htable : form.genTable = true) :
    Sectioned form (sortInputs true inputs) 0 0 0 (genMap form (sortInputs true inputs)) := by
  refine genLoop_sectioned htable _ 0 0 0 (sortInputs_input0 inputs) fun ip hip => ⟨UInt8.zero_le, ?_⟩
  exact accepts_input0_ne h (mem_sortInputs.mp hip)

theorem genMap_starts_length (htable : form.genTable = true) :
    (genMap form (sortInputs true inputs)).2.length ≤ 127 := by
  have hsec := genMap_sectioned h htable
  have hsub : (genMap form (sortInputs true inputs)).2.map Prod.fst ⊆ (inputs.map InputEntry.input0).dedup := by
    intro c hc
    obtain ⟨_, ip, hip, rfl⟩ := (hsec.starts c).mp hc
    exact List.mem_dedup.mpr (List.mem_map_of_mem (mem_sortInputs.mp hip))
  have hle := (List.subperm_of_subset hsec.distinct hsub).length_le
  rw [List.length_map] at hle
  exact Nat.le_trans hle (h.starts htable)

theorem genMap_offset_lt (htable : form.genTable = true) :
    ∀ s ∈ (genMap form (sortInputs true inputs)).2, s.2 < 2 ^ 24 := by
  intro s hs
  obtain ⟨_, _, hbound, _⟩ := (genMap_sectioned h htable).sections s hs
  have hlen := length_genLoop_le form (sortInputs true inputs)
    (fun ip hip => ⟨h.short ip (mem_sortInputs.mp hip), (h.writes ip (mem_sortInputs.mp hip)).output⟩)
    0 0 0
  have hsize : (sortInputs true inputs).length = inputs.length := List.length_mergeSort _
  have := h.size
  unfold genMap at hbound
  omega

/-- `kmap_input` has found a section, and reads it. -/
structure ReadsSection (form : MapForm) (inputs : List InputEntry) (buf : List Nat) (ips : List InputEntry) :
    Prop where
  sublist : ips.Sublist (sortInputs form.genTable inputs)
  leads : ∀ ip ∈ ips, LeadsTo form buf ip
  all : ∀ ip ∈ inputs, LeadsTo form buf ip → ip ∈ ips

/-- What `kmap_input` does on the bytes of a map: it reads the section of the first byte, or finds that
there is none. -/
theorem kmapInput_compileMap {data : List UInt8} (hdata : compileMap form inputs = some data)
    (matchBufSize : Nat) {buf : List Nat} (hbuf : buf ≠ []) :
    (kmapInput matchBufSize data buf = some .noMatch ∧ ∀ ip ∈ inputs, ¬LeadsTo form buf ip) ∨
      ∃ ips more fuel, ReadsSection form inputs buf ips ∧ (putSection form 0 ips).length < fuel ∧
        kmapInput matchBufSize data buf =
          (kmapLoop buf form.isChineseCj form.first fuel (putSection form 0 ips ++ 0 :: more) 0 {}).bind
            fun m => m.result matchBufSize buf.length := by
  rw [compileMap_eq h] at hdata
  obtain rfl := Option.some.inj hdata
  cases htable : form.genTable with
  | false =>
    right
    have hgen : genMap form (sortInputs false inputs)
        = (putSection form 0 (sortInputs false inputs) ++ [0], []) := genLoop_plain htable _ 0 0 0
    obtain ⟨hn, hcj⟩ := map_head (Nat.zero_le 127) form.isChineseCj
    refine ⟨sortInputs false inputs, [], (putSection form 0 (sortInputs false inputs) ++ [0]).length + 1,
      ⟨?_, fun ip _ ht => ?_, fun ip hip _ => mem_sortInputs.mpr hip⟩, ?_, ?_⟩
    · rw [htable]
    · rw [htable] at ht
      exact absurd ht Bool.false_ne_true
    · rw [List.length_append]
      omega
    · have hfirst : form.first = 0 := if_neg (htable ▸ Bool.false_ne_true)
      rw [hgen, if_neg Bool.false_ne_true, List.singleton_append, List.length_nil,
        kmapInput_head (Nat.zero_le 127), if_neg (Nat.lt_irrefl 0), hfirst]
  | true =>
    have hsec := genMap_sectioned h htable
    have hn := genMap_starts_length h htable
    have hfind := fun c r => findStart_putStart c r _ (genMap_offset_lt h htable)
    rw [if_pos rfl, List.cons_append, kmapInput_head hn]
    obtain ⟨c, tl, rfl⟩ := List.exists_cons_of_ne_nil hbuf
    have hleads : ∀ ip, LeadsTo form (c :: tl) ip ↔ c = ip.input0.toNat := fun ip =>
      ⟨fun hl => Option.some.inj (hl htable), fun hc _ => congrArg some hc⟩
    rcases hs : (genMap form (sortInputs true inputs)).2.find? fun s => c = s.1.toNat with _ | s
    · left
      have hno : ∀ ip ∈ inputs, ¬LeadsTo form (c :: tl) ip := by
        intro ip hip hl
        obtain ⟨s, hmem, hbyte⟩ := List.mem_map.mp
          ((hsec.starts ip.input0).mpr ⟨accepts_input0_ne h hip, ip, mem_sortInputs.mpr hip, rfl⟩)
        have hne := List.find?_eq_none.mp hs s hmem
        rw [hbyte] at hne
        exact hne (decide_eq_true ((hleads ip).mp hl))
      refine ⟨?_, hno⟩
      split
      · rw [List.headD_cons, hfind, hs]
        rfl
      next hzero =>
        -- there is no entry at all
        have hnil : inputs = [] := by
          rw [List.eq_nil_iff_forall_not_mem]
          intro ip hip
          have hmem := (hsec.starts ip.input0).mpr ⟨accepts_input0_ne h hip, ip, mem_sortInputs.mpr hip, rfl⟩
          rw [List.length_eq_zero_iff.mp (Nat.eq_zero_of_not_pos hzero)] at hmem
          exact absurd hmem List.not_mem_nil
        have hempty : genMap form (sortInputs true inputs) = ([0], []) := by
          rw [hnil, sortInputs, List.mergeSort_nil]
          rfl
        rw [hempty]
        rfl
    · right
      have hmem := List.mem_of_find?_eq_some hs
      have hc : c = s.1.toNat := of_decide_eq_true
        (List.find?_some (p := fun s : UInt8 × Nat => decide (c = s.1.toNat)) hs)
      obtain ⟨_, _, _, more, hmore⟩ := hsec.sections s hmem
      rw [Nat.sub_zero] at hmore
      refine ⟨sectionOf s.1 (sortInputs true inputs), more,
        (putSection form 0 (sectionOf s.1 (sortInputs true inputs)) ++ 0 :: more).length + 1,
        ⟨?_, fun ip hip => ?_, fun ip hip hl => ?_⟩, ?_, ?_⟩
      · rw [htable]
        exact List.filter_sublist
      · rw [hleads, hc, of_decide_eq_true (List.mem_filter.mp hip).2]
      · refine List.mem_filter.mpr ⟨mem_sortInputs.mpr hip, decide_eq_true ?_⟩
        exact UInt8.toNat_inj.mp (((hleads ip).mp hl).symm.trans hc)
      · rw [List.length_append]
        omega
      · have hlen : ((genMap form (sortInputs true inputs)).2.flatMap putStart).length
            = (genMap form (sortInputs true inputs)).2.length * 4 := by
          rw [List.length_flatMap]
          generalize (genMap form (sortInputs true inputs)).2 = l
          induction l with
          | nil => rfl
          | cons s l ih =>
            rw [List.map_cons, List.sum_cons, ih, List.length_cons]
            change 4 + _ = _
            omega
        have hfirst : form.first = 1 := if_pos htable
        rw [if_pos (List.length_pos_of_mem hmem), List.headD_cons, hfind, hs, hfirst]
        change Option.bind (kmapLoop _ _ _ ((List.drop (_ + s.2) _).length + 1) (List.drop (_ + s.2) _) _ _) _
          = _
        rw [← hlen, List.drop_length_add_append, hmore]

/-! ## The answer -/

omit h in
theorem leads_of_agrees (hin : form.HasInput ip) {buf : List Nat} (hbuf : buf ≠ []) (ha : Agrees ip.word buf)
    : LeadsTo form buf ip := by
  intro _
  obtain ⟨c, tl, rfl⟩ := List.exists_cons_of_ne_nil hbuf
  unfold InputEntry.word at ha
  unfold InputEntry.input0
  rcases hinput : ip.input with _ | ⟨d, l⟩
  · exact absurd hinput hin.1
  · rw [hinput, List.map_cons, agrees_cons_cons] at ha
    rw [List.head?_cons, ← ha.1]
    rfl

theorem words_nodup {ips : List InputEntry} (hsub : ips.Sublist (sortInputs form.genTable inputs)) :
    ((mapOf ips).map Prod.fst).Nodup := by
  have hall : ((inputs.map InputEntry.input).map (List.map UInt8.toNat)).Nodup :=
    h.distinct.map (List.map_injective_iff.mpr fun a b hab => UInt8.toNat_inj.mp hab)
  have hperm := (List.mergeSort_perm inputs fun a b => sortFunc form.genTable a b ≤ 0).map InputEntry.word
  have hsorted : ((sortInputs form.genTable inputs).map InputEntry.word).Nodup := by
    refine hperm.nodup_iff.mpr ?_
    rw [List.map_map] at hall
    exact hall
  have hmap : (mapOf ips).map Prod.fst = ips.map InputEntry.word := by
    rw [mapOf, List.map_map]
    rfl
  rw [hmap]
  exact hsorted.sublist (hsub.map _)

theorem works_of_not_loses (hloses : ∀ ip ∈ inputs, ¬form.Loses ip) {matchBufSize : Nat}
    (hsize : 20 ≤ matchBufSize) : form.Works inputs matchBufSize := by
  refine ⟨_, compileMap_eq h, fun buf hbuf => ?_⟩
  have hagree : ∀ ip ∈ inputs, Agrees ip.word buf → LeadsTo form buf ip := fun ip hip ha =>
    leads_of_agrees (h.writes ip hip).input hbuf ha
  rcases kmapInput_compileMap h (compileMap_eq h) matchBufSize hbuf with
    ⟨hresult, hno⟩ | ⟨ips, more, fuel, hread, hfuel, hresult⟩
  · refine ⟨.noMatch, ⟨fun e he hx => ?_, fun e he hx => ?_⟩, hresult⟩
    · obtain ⟨ip, hip, rfl⟩ := List.mem_map.mp he
      exact hno ip hip (hagree ip hip (.inr hx.1))
    · obtain ⟨ip, hip, rfl⟩ := List.mem_map.mp he
      exact hno ip hip (hagree ip hip (.inl hx))
  · have hmem : ∀ ip ∈ ips, ip ∈ inputs := fun ip hip => mem_sortInputs.mp (hread.sublist.subset hip)
    obtain ⟨m, hloop, hshows⟩ := kmapLoop_putSection more ips
      (fun ip hip => ⟨h.writes ip (hmem ip hip), hloses ip (hmem ip hip), hread.leads ip hip⟩)
      fuel 0 {} {} hfuel .init
    have hbest := Best.Of.foldl buf (mapOf ips) [] {} (.nil buf)
    rw [List.nil_append] at hbest
    refine ⟨_, (hbest.isAnswer (words_nodup h hread.sublist) (fun e he => ?_) hbuf).of_agreeing
      (fun e he => ?_) (fun e he ha => ?_), ?_⟩
    · obtain ⟨ip, hip, rfl⟩ := List.mem_map.mp he
      exact fun hnil => (h.writes ip (hmem ip hip)).input.1 (List.map_eq_nil_iff.mp hnil)
    · obtain ⟨ip, hip, rfl⟩ := List.mem_map.mp he
      exact List.mem_map_of_mem (hmem ip hip)
    · obtain ⟨ip, hip, rfl⟩ := List.mem_map.mp he
      exact List.mem_map_of_mem (hread.all ip hip (hagree ip hip ha))
    · rw [hresult, hloop]
      refine hshows.result hbest (fun e he => ?_) hsize
      obtain ⟨ip, hip, rfl⟩ := List.mem_map.mp he
      exact (h.writes ip (hmem ip hip)).output

/-- A map that loses an entry does not see the space that is typed for it, before a character that is
not a byte. -/
theorem not_works_of_loses (hip : ip ∈ inputs) (hloses : form.Loses ip) (matchBufSize : Nat)
    : ¬form.Works inputs matchBufSize := by
  rintro ⟨data, hdata, hall⟩
  obtain ⟨r, hanswer, hr⟩ := hall [32, 256] (List.cons_ne_nil _ _)
  have hno : kmapInput matchBufSize data [32, 256] = some .noMatch := by
    rcases kmapInput_compileMap h hdata matchBufSize (List.cons_ne_nil 32 [256]) with
      ⟨hresult, _⟩ | ⟨ips, more, fuel, hread, hfuel, hresult⟩
    · exact hresult
    · rw [hresult, kmapLoop_noMatch hloses.1 hloses.2.1 more ips (fun ip' hip' =>
        (h.writes ip' (mem_sortInputs.mp (hread.sublist.subset hip'))).output) fuel 0 0 {} hfuel]
      rfl
  have hfound := Option.some.inj (hr.symm.trans hno)
  cases r with
  | noMatch =>
    refine hanswer.2 ip.pair (List.mem_map_of_mem hip) ?_
    change ip.input.map UInt8.toNat <+: [32, 256]
    rw [hloses.2.2]
    exact ⟨[256], rfl⟩
  | moreChars => exact nomatch hfound
  | found output len => exact nomatch hfound

end Maps

/-- Compiled maps answer as the map does, for every sequence of keys, exactly if none of their inputs is
a space alone that is written with a start table and without its trailing space. -/
theorem compiledMap_works_iff {form : MapForm} {inputs : List InputEntry} (h : form.Accepts inputs)
    {matchBufSize : Nat} (hsize : 20 ≤ matchBufSize) :
    form.Works inputs matchBufSize ↔ ∀ ip ∈ inputs, ¬form.Loses ip :=
  ⟨fun hworks _ hip hloses => not_works_of_loses h hip hloses matchBufSize hworks,
    fun hloses => works_of_not_loses h hloses hsize⟩

/-- `a` and `ab`, in one section. -/
theorem compiledMap_works_ab : MapForm.Works ⟨true, false⟩ [⟨[97], [5], 0⟩, ⟨[97, 98], [6], 1⟩] 20 :=
  (compiledMap_works_iff
    { distinct := by decide
      writes := List.forall_mem_cons.mpr ⟨⟨⟨by decide, by decide⟩, by decide, by decide⟩,
        List.forall_mem_singleton.mpr ⟨⟨by decide, by decide⟩, by decide, by decide⟩⟩
      short := by decide
      nonzero := by decide
      starts := by decide
      size := by decide } (by decide)).mpr (by decide)

/-- **A space alone is taken for two.** In a map with a start table and without its trailing spaces, the
entry for a space leaves only its output, and one more space is expected before it. -/
theorem compiledMap_space :
    compileMap ⟨true, true⟩ [⟨[32], [0x4e00], 0⟩] = some [0x81, 32, 0, 0, 0, 0x1e, 0x4e, 0, 0] ∧
      kmapInput 20 [0x81, 32, 0, 0, 0, 0x1e, 0x4e, 0, 0] [32] = some .moreChars ∧
      kmapInput 20 [0x81, 32, 0, 0, 0, 0x1e, 0x4e, 0, 0] [32, 97] = some .noMatch ∧
      ¬∀ (form : MapForm) (inputs : List InputEntry), form.Accepts inputs → form.Works inputs 20 := by
  have haccepts : MapForm.Accepts ⟨true, true⟩ [⟨[32], [0x4e00], 0⟩] :=
    { distinct := by decide
      writes := List.forall_mem_singleton.mpr ⟨⟨by decide, by decide⟩, by decide, by decide⟩
      short := by decide
      nonzero := by decide
      starts := by decide
      size := by decide }
  refine ⟨?_, by decide +kernel, by decide +kernel, fun hall => ?_⟩
  · rw [compileMap_eq haccepts, sortInputs, List.mergeSort_singleton]
    decide +kernel
  · exact not_works_of_loses haccepts (List.mem_singleton.mpr rfl) (by decide) 20 (hall _ _ haccepts)

end Qemacs
