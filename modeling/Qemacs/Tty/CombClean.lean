import Qemacs.Lib.Run
import Qemacs.Tty.CombCache

/-!
# Cleaning the cache of combinations

After a flush `comb_cache_clean` takes out of the cache what is not on the screen. It marks all entries as free, marks
those of the screen as used again, and joins what is free, so that an entry stays where it is and the code in a cell
still stands for its sequence. With `comb_cache_add` that makes a system: whatever is put into the cells of a screen,
and whenever it is flushed, a cell shows what was last put into it (`combScreen_shows`).

Between the loops the blocks are those of the cache with a mark (`MarkedFrom`); `sweep` is what is left of them.
-/

namespace Qemacs

/-! ## The loops -/

/-- `v & 0x10000`. -/
def isFreeSize (v : Nat) : Bool := v / 0x10000 % 2 = 1

/-- `v | 0x10000`. -/
def setFree (v : Nat) : Nat := if isFreeSize v then v else v + 0x10000

/-- `v & ~0x10000`. -/
def clearFree (v : Nat) : Nat := if isFreeSize v then v - 0x10000 else v

/-- The first loop: all entries are marked as free. -/
def markFree : Nat → (Nat → Nat) → Nat → Option (Nat → Nat)
  | 0, _, _ => none
  | fuel + 1, mem, ip =>
      if mem ip = 0 then some mem
      else
        let mem := setAt mem ip (setFree (mem ip))
        markFree fuel mem (ip + mem ip % 0x10000)

/-- `ch` is the code of an entry. -/
def isCombCode (ch : Nat) : Bool := ttyCharComb ≤ ch ∧ ch < ttyCharComb + combCacheSize - 1

/-- The entry of a character of the screen is marked as used. -/
def markUsed (mem : Nat → Nat) (ch : Nat) : Nat → Nat :=
  if isCombCode ch then setAt mem (ch - ttyCharComb) (clearFree (mem (ch - ttyCharComb))) else mem

/-- The inner loop: the free entries behind a free one are added to it. -/
def joinFree : Nat → (Nat → Nat) → Nat → Option (Nat → Nat)
  | 0, _, _ => none
  | fuel + 1, mem, ip =>
      let next := mem (ip + mem ip % 0x10000)
      if isFreeSize next then joinFree fuel (setAt mem ip (mem ip + next % 0x10000)) ip else some mem

/-- The last loop: free entries are joined, and cut off at the end. -/
def coalesce : Nat → (Nat → Nat) → Nat → Option (Nat → Nat)
  | 0, _, _ => none
  | fuel + 1, mem, ip =>
      if mem ip = 0 then some mem
      else if isFreeSize (mem ip) then
        (joinFree combCacheSize mem ip).bind fun mem =>
          if mem (ip + mem ip % 0x10000) = 0 then some (setAt mem ip 0)
          else coalesce fuel mem (ip + mem ip % 0x10000)
      else coalesce fuel mem (ip + mem ip % 0x10000)

/-- `comb_cache_clean`, for the characters of the screen. -/
def combCacheClean (mem : Nat → Nat) (screen : List Nat) : Option (Nat → Nat) :=
  if mem 0 = 0 then some mem
  else (markFree combCacheSize mem 0).bind fun mem => coalesce combCacheSize (screen.foldl markUsed mem) 0

/-! ## Marked blocks -/

/-- The block is in memory; the sequence of one that is not live has the flag. -/
def CombBlock.Marked (live : Nat → Bool) (mem : Nat → Nat) (ip : Nat) : CombBlock → Prop
  | .used seq => mem ip = (if live ip then 0 else 0x10000) + (seq.length + 1) ∧ CombAt mem (ip + 1) seq
  | .free size => 0 < size ∧ mem ip = 0x10000 + size

def MarkedFrom (live : Nat → Bool) (mem : Nat → Nat) : Nat → List CombBlock → Prop
  | _, [] => True
  | ip, b :: bs => b.Marked live mem ip ∧ MarkedFrom live mem (ip + b.size) bs

variable {live live' : Nat → Bool} {mem mem' : Nat → Nat} {ip k : Nat} {bs : List CombBlock} {seq : List Nat}

theorem CombBlock.Marked.congr {b : CombBlock} (h : b.Marked live mem ip) (hlive : live' ip = live ip)
    (heq : ∀ i, ip ≤ i → i < ip + b.size → mem' i = mem i) : b.Marked live' mem' ip := by
  cases b with
  | used seq =>
    refine ⟨?_, fun j hj => ?_⟩
    · rw [heq ip (Nat.le_refl ip) (by rw [CombBlock.size]; omega), hlive]
      exact h.1
    · rw [heq (ip + 1 + j) (by omega) (by rw [CombBlock.size]; omega)]
      exact h.2 j hj
  | free size => exact ⟨h.1, (heq ip (Nat.le_refl ip) (Nat.lt_add_of_pos_right h.1)).trans h.2⟩

theorem MarkedFrom.congr : ∀ {bs : List CombBlock} {ip : Nat}, MarkedFrom live mem ip bs →
    (∀ i, ip ≤ i → i < ip + sizes bs → live' i = live i ∧ mem' i = mem i) → MarkedFrom live' mem' ip bs := by
  intro bs
  induction bs with
  | nil => exact fun _ _ => trivial
  | cons b bs ih =>
    intro ip h heq
    rw [sizes_cons] at heq
    have hpos : 0 < b.size := by
      cases b with
      | used seq => exact Nat.succ_pos _
      | free size => exact h.1.1
    exact ⟨h.1.congr (heq ip (Nat.le_refl ip) (by omega)).1 fun i hi hlt => (heq i hi (by omega)).2,
      ih h.2 fun i hi hlt => heq i (by omega) (by omega)⟩

theorem markedFrom_append {cs : List CombBlock} : ∀ {bs : List CombBlock} {ip : Nat},
    MarkedFrom live mem ip (bs ++ cs) ↔ MarkedFrom live mem ip bs ∧ MarkedFrom live mem (ip + sizes bs) cs := by
  intro bs
  induction bs with
  | nil => intro ip; simp [MarkedFrom]
  | cons b bs ih =>
    intro ip
    rw [List.cons_append, MarkedFrom, MarkedFrom, ih, sizes_cons, Nat.add_assoc, and_assoc]

theorem Segment.marked : ∀ {bs : List CombBlock} {ip : Nat}, Segment mem ip bs →
    MarkedFrom (fun _ => true) mem ip bs := by
  intro bs
  induction bs with
  | nil => exact fun _ => trivial
  | cons b bs ih =>
    refine fun h => ⟨?_, ih h.2⟩
    cases b with
    | used seq => exact ⟨h.1.1.trans (by simp), h.1.2⟩
    | free size => exact h.1

theorem isFreeSize_add {n : Nat} (hn : n < 0x10000) : isFreeSize (0x10000 + n) = true := by
  rw [isFreeSize, decide_eq_true_iff]
  omega

theorem isFreeSize_lt {n : Nat} (hn : n < 0x10000) : isFreeSize n = false := by
  rw [isFreeSize, decide_eq_false_iff_not]
  omega

def CombBlock.isLive (live : Nat → Bool) (ip : Nat) : CombBlock → Bool
  | .used _ => live ip
  | .free _ => false

theorem CombBlock.Marked.head {b : CombBlock} (h : b.Marked live mem ip) (hsize : b.size < 0x10000) :
    0 < b.size ∧ mem ip = (if b.isLive live ip then 0 else 0x10000) + b.size ∧ mem ip % 0x10000 = b.size ∧
      mem ip ≠ 0 ∧ isFreeSize (mem ip) = !b.isLive live ip := by
  have hpos : 0 < b.size ∧ mem ip = (if b.isLive live ip then 0 else 0x10000) + b.size := by
    cases b with
    | used seq => exact ⟨Nat.succ_pos _, h.1⟩
    | free size => exact h
  refine ⟨hpos.1, hpos.2, ?_⟩
  rw [hpos.2]
  cases b.isLive live ip with
  | true =>
    rw [if_pos rfl, Nat.zero_add, isFreeSize_lt hsize]
    exact ⟨Nat.mod_eq_of_lt hsize, by omega, rfl⟩
  | false =>
    rw [if_neg Bool.false_ne_true, isFreeSize_add hsize]
    exact ⟨by omega, by omega, rfl⟩

theorem length_le_sizes : ∀ {bs : List CombBlock} {ip : Nat}, MarkedFrom live mem ip bs →
    bs.length ≤ sizes bs := by
  intro bs
  induction bs with
  | nil => exact fun _ => Nat.le_refl 0
  | cons b bs ih =>
    intro ip h
    have hrest := ih h.2
    have hpos : 0 < b.size := by
      cases b with
      | used seq => exact Nat.succ_pos _
      | free size => exact h.1.1
    rw [List.length_cons, sizes_cons]
    omega

theorem markFree_spec : ∀ {bs : List CombBlock} {mem : Nat → Nat} {ip fuel : Nat},
    MarkedFrom (fun _ => true) mem ip bs → mem (ip + sizes bs) = 0 → ip + sizes bs < combCacheSize →
    bs.length < fuel → ∃ mem', markFree fuel mem ip = some mem' ∧ MarkedFrom (fun _ => false) mem' ip bs ∧
      ∀ i, i < ip ∨ ip + sizes bs ≤ i → mem' i = mem i := by
  intro bs
  induction bs with
  | nil =>
    intro mem ip fuel _ hstop _ hfuel
    obtain ⟨fuel, rfl⟩ := Nat.exists_eq_add_of_lt hfuel
    exact ⟨mem, if_pos hstop, trivial, fun _ _ => rfl⟩
  | cons b bs ih =>
    intro mem ip fuel h hstop hroom hfuel
    rw [sizes_cons] at hstop hroom
    unfold combCacheSize at hroom
    cases fuel with
    | zero => exact absurd hfuel (Nat.not_lt_zero _)
    | succ fuel =>
      obtain ⟨hpos, hmem, -, hne, hflag⟩ := h.1.head (by omega)
      have hmem : setFree (mem ip) = 0x10000 + b.size := by
        rw [setFree, hflag, hmem]
        cases b.isLive (fun _ => true) ip with
        | true => simp; omega
        | false => simp
      have hset : setAt mem ip (setFree (mem ip)) ip = 0x10000 + b.size := (if_pos rfl).trans hmem
      have hother : ∀ i, i ≠ ip → setAt mem ip (setFree (mem ip)) i = mem i := fun i hi => if_neg hi
      have hnext : ip + setAt mem ip (setFree (mem ip)) ip % 0x10000 = ip + b.size := by
        rw [hset]
        omega
      obtain ⟨mem', hrun, hmarked, hframe⟩ := @ih (setAt mem ip (setFree (mem ip))) (ip + b.size) fuel
        (h.2.congr fun i hi _ => ⟨rfl, hother i (by omega)⟩)
        ((hother _ (by omega)).trans (by rw [← hstop, Nat.add_assoc])) (by unfold combCacheSize; omega)
        (by rw [List.length_cons] at hfuel; omega)
      have hbelow : ∀ i, i < ip + b.size → mem' i = setAt mem ip (setFree (mem ip)) i := fun i hi => hframe i (.inl hi)
      refine ⟨mem', ?_, ⟨?_, hmarked⟩, fun i hi => ?_⟩
      · rw [markFree, if_neg hne]
        simp only [hnext, hrun]
      · have hhead : mem' ip = 0x10000 + b.size := (hbelow ip (by omega)).trans hset
        have hb := h.1
        cases b with
        | used seq =>
          refine ⟨hhead, fun j hj => ?_⟩
          rw [hbelow _ (by rw [CombBlock.size]; omega), hother _ (by omega)]
          exact hb.2 j hj
        | free size => exact ⟨hb.1, hhead⟩
      · rw [sizes_cons] at hi
        rw [hframe i (by omega), hother i (by omega)]

theorem MarkedFrom.setUsed (h : MarkedFrom live mem 0 bs) (hroom : sizes bs < combCacheSize)
    (hk : BlockAt bs k seq) : MarkedFrom (fun i => live i || i == k) (setAt mem k (clearFree (mem k))) 0 bs := by
  obtain ⟨pre, post, rfl, rfl⟩ := hk
  rw [sizes_append, sizes_cons] at hroom
  unfold combCacheSize at hroom
  obtain ⟨hpre, hblock, hpost⟩ := markedFrom_append.mp h
  rw [Nat.zero_add] at hblock hpost
  have hother : ∀ i, i ≠ sizes pre → (live i || i == sizes pre) = live i ∧
      setAt mem (sizes pre) (clearFree (mem (sizes pre))) i = mem i := fun i hi =>
    ⟨by rw [beq_false_of_ne hi, Bool.or_false], if_neg hi⟩
  refine markedFrom_append.mpr ⟨hpre.congr fun i _ hi => hother i (by omega), ?_, ?_⟩
  · rw [Nat.zero_add]
    obtain ⟨-, hmem, -, -, hflag⟩ := hblock.head (by omega)
    refine ⟨?_, fun j hj => ?_⟩
    · rw [setAt, if_pos rfl, clearFree, hflag, hmem]
      simp only [beq_self_eq_true, Bool.or_true]
      cases (CombBlock.used seq).isLive live (sizes pre) with
      | true => simp [CombBlock.size]
      | false => simp [CombBlock.size]
    · rw [(hother _ (by omega)).2]
      exact hblock.2 j hj
  · rw [Nat.zero_add]
    exact hpost.congr fun i hi _ => hother i (by rw [CombBlock.size] at hi; omega)

theorem MarkedFrom.screen (hroom : sizes bs < combCacheSize) : ∀ {screen : List Nat} {live : Nat → Bool}
    {mem : Nat → Nat}, MarkedFrom live mem 0 bs → mem (sizes bs) = 0 →
    (∀ ch ∈ screen, isCombCode ch = true → ∃ seq, BlockAt bs (ch - ttyCharComb) seq) →
    MarkedFrom (fun k => live k || decide (ttyCharComb + k ∈ screen)) (screen.foldl markUsed mem) 0 bs ∧
      screen.foldl markUsed mem (sizes bs) = 0 := by
  intro screen
  induction screen with
  | nil =>
    intro live mem h hstop _
    exact ⟨h.congr fun i _ _ => ⟨by simp, rfl⟩, hstop⟩
  | cons ch screen ih =>
    intro live mem h hstop hcodes
    have hrest := fun c hc => hcodes c (List.mem_cons_of_mem ch hc)
    rw [List.foldl_cons, markUsed]
    by_cases hch : isCombCode ch = true
    · rw [if_pos hch]
      obtain ⟨seq, hat⟩ := hcodes ch List.mem_cons_self hch
      have hlt : ch - ttyCharComb < sizes bs := by
        obtain ⟨pre, post, rfl, hk⟩ := hat
        rw [sizes_append, sizes_cons, CombBlock.size]
        omega
      obtain ⟨hmarked, hstop'⟩ := ih (h.setUsed hroom hat) (by rw [setAt, if_neg (by omega)]; exact hstop) hrest
      refine ⟨hmarked.congr fun i _ _ => ⟨?_, rfl⟩, hstop'⟩
      rw [isCombCode, decide_eq_true_iff] at hch
      have heq : (i == ch - ttyCharComb) = decide (ttyCharComb + i = ch) := by
        rw [Bool.eq_iff_iff, beq_iff_eq, decide_eq_true_iff]
        omega
      simp only [heq, List.mem_cons, Bool.decide_or, Bool.or_assoc]
    · rw [if_neg hch]
      obtain ⟨hmarked, hstop'⟩ := ih h hstop hrest
      refine ⟨hmarked.congr fun i _ hi => ⟨?_, rfl⟩, hstop'⟩
      have hne : ttyCharComb + i ≠ ch := by
        rintro rfl
        refine hch ?_
        rw [isCombCode, decide_eq_true_iff]
        omega
      simp only [List.mem_cons, hne, false_or]

/-! ## What is left of the blocks -/

/-- The blocks that stay, with what is free in front of each as one block; `n` is free in front of the first. -/
def sweep (live : Nat → Bool) : Nat → Nat → List CombBlock → List CombBlock
  | _, _, [] => []
  | ip, n, b :: bs =>
      if b.isLive live ip then (if n = 0 then [] else [.free n]) ++ b :: sweep live (ip + b.size) 0 bs
      else sweep live (ip + b.size) (n + b.size) bs

/-- Behind a free block there is one in use. -/
def Compact : List CombBlock → Prop
  | [] => True
  | .used _ :: bs => Compact bs
  | .free _ :: bs => (∃ seq bs', bs = .used seq :: bs') ∧ Compact bs

theorem CombBlock.eq_used {b : CombBlock} (h : b.isLive live ip = true) : ∃ seq, b = .used seq := by
  cases b with
  | used seq => exact ⟨seq, rfl⟩
  | free size => exact absurd h Bool.false_ne_true

theorem compact_sweep : ∀ (bs : List CombBlock) (ip n : Nat), Compact (sweep live ip n bs) := by
  intro bs
  induction bs with
  | nil => exact fun _ _ => trivial
  | cons b bs ih =>
    intro ip n
    rw [sweep]
    split_ifs with hlive hn
    · obtain ⟨seq, rfl⟩ := CombBlock.eq_used hlive
      exact ih _ _
    · obtain ⟨seq, rfl⟩ := CombBlock.eq_used hlive
      exact ⟨⟨seq, _, rfl⟩, ih _ _⟩
    · exact ih _ _

theorem blockAt_cons {b : CombBlock} : BlockAt (b :: bs) k seq ↔
    (b = .used seq ∧ k = 0) ∨ ∃ i, BlockAt bs i seq ∧ k = b.size + i := by
  constructor
  · rintro ⟨pre, post, hsplit, rfl⟩
    cases pre with
    | nil => exact .inl ⟨(List.cons_eq_cons.mp hsplit).1, rfl⟩
    | cons c pre =>
      obtain ⟨rfl, rfl⟩ := List.cons_eq_cons.mp hsplit
      exact .inr ⟨_, ⟨pre, post, rfl, rfl⟩, sizes_cons b pre⟩
  · rintro (⟨rfl, rfl⟩ | ⟨i, ⟨pre, post, rfl, rfl⟩, rfl⟩)
    · exact ⟨[], bs, rfl, rfl⟩
    · exact ⟨b :: pre, post, rfl, sizes_cons b pre⟩

/-- **What stays is where it was**, and it is what is live. -/
theorem blockAt_sweep : ∀ {bs : List CombBlock} {ip n k : Nat}, BlockAt (sweep live ip n bs) k seq ↔
    ∃ i, BlockAt bs i seq ∧ live (ip + i) = true ∧ k = n + i := by
  intro bs
  induction bs with
  | nil =>
    have hnil : ∀ {i : Nat}, ¬BlockAt [] i seq := by
      rintro i ⟨pre, post, hsplit, -⟩
      exact absurd hsplit (by simp)
    intro ip n k
    refine iff_of_false hnil ?_
    rintro ⟨i, hat, -⟩
    exact hnil hat
  | cons b bs ih =>
    intro ip n k
    rw [sweep]
    by_cases hlive : b.isLive live ip = true
    · obtain ⟨seq', rfl⟩ := CombBlock.eq_used hlive
      have hfront : ∀ cs : List CombBlock, BlockAt ((if n = 0 then [] else [.free n]) ++ cs) k seq ↔
          ∃ i, BlockAt cs i seq ∧ k = n + i := fun cs => by
        split_ifs with hn
        · simp [hn]
        · rw [List.singleton_append, blockAt_cons]
          simp [CombBlock.size]
      rw [if_pos hlive, hfront]
      simp only [blockAt_cons, ih, Nat.zero_add, CombBlock.used.injEq]
      constructor
      · rintro ⟨i, ⟨rfl, rfl⟩ | ⟨j, ⟨j', hat, hj, rfl⟩, rfl⟩, rfl⟩
        · exact ⟨0, .inl ⟨rfl, rfl⟩, hlive, rfl⟩
        · exact ⟨_, .inr ⟨j, hat, rfl⟩, by rwa [← Nat.add_assoc], rfl⟩
      · rintro ⟨i, ⟨rfl, rfl⟩ | ⟨j, hat, rfl⟩, hi, rfl⟩
        · exact ⟨0, .inl ⟨rfl, rfl⟩, rfl⟩
        · exact ⟨(CombBlock.used seq').size + j, .inr ⟨j, ⟨j, hat, by rwa [Nat.add_assoc], rfl⟩, rfl⟩, rfl⟩
    · rw [if_neg hlive, ih]
      simp only [blockAt_cons]
      constructor
      · rintro ⟨i, hat, hi, rfl⟩
        exact ⟨b.size + i, .inr ⟨i, hat, rfl⟩, by rwa [← Nat.add_assoc], Nat.add_assoc _ _ _⟩
      · rintro ⟨i, ⟨rfl, rfl⟩ | ⟨j, hat, rfl⟩, hi, rfl⟩
        · exact absurd hi hlive
        · exact ⟨j, hat, by rwa [Nat.add_assoc], (Nat.add_assoc _ _ _).symm⟩

theorem setAt_setAt (mem : Nat → Nat) (i v w : Nat) : setAt (setAt mem i v) i w = setAt mem i w := by
  funext j
  simp only [setAt]
  split <;> rfl

theorem joinFree_spec : ∀ {bs : List CombBlock} {mem : Nat → Nat} {n fuel : Nat}, mem ip = 0x10000 + n → 0 < n →
    MarkedFrom live mem (ip + n) bs → mem (ip + n + sizes bs) = 0 → ip + n + sizes bs < combCacheSize →
    bs.length < fuel → ∃ dead rest, bs = dead ++ rest ∧
      joinFree fuel mem ip = some (setAt mem ip (0x10000 + (n + sizes dead))) ∧
      (rest = [] ∨ ∃ b more, rest = b :: more ∧ b.isLive live (ip + n + sizes dead) = true) ∧
      sweep live (ip + n) n bs = sweep live (ip + n + sizes dead) (n + sizes dead) rest := by
  intro bs
  induction bs with
  | nil =>
    intro mem n fuel hn _ _ hstop hroom hfuel
    obtain ⟨fuel, rfl⟩ := Nat.exists_eq_add_of_lt hfuel
    unfold combCacheSize at hroom
    rw [sizes_nil, Nat.add_zero] at hstop hroom
    refine ⟨[], [], rfl, ?_, .inl rfl, rfl⟩
    have hmod : mem ip % 0x10000 = n := by omega
    rw [List.length_nil, Nat.zero_add, joinFree]
    simp only [hmod, hstop]
    rw [isFreeSize_lt (by decide), if_neg Bool.false_ne_true, sizes_nil, Nat.add_zero, ← hn]
    exact congrArg some (funext fun j => by unfold setAt; split_ifs with hj <;> simp [hj])
  | cons b bs ih =>
    intro mem n fuel hn hpos h hstop hroom hfuel
    have hroom' := hroom
    unfold combCacheSize at hroom
    rw [sizes_cons] at hstop hroom hroom'
    cases fuel with
    | zero => exact absurd hfuel (Nat.not_lt_zero _)
    | succ fuel =>
      obtain ⟨hsize, -, hmodb, -, hflag⟩ := h.1.head (by omega)
      have hmod : mem ip % 0x10000 = n := by omega
      rw [joinFree]
      simp only [hmod, hflag, hmodb]
      by_cases hlive : b.isLive live (ip + n) = true
      · refine ⟨[], b :: bs, rfl, ?_, .inr ⟨b, bs, rfl, hlive⟩, rfl⟩
        rw [hlive, if_neg (by decide), sizes_nil, Nat.add_zero, ← hn]
        exact congrArg some (funext fun j => by unfold setAt; split_ifs with hj <;> simp [hj])
      · rw [eq_false_of_ne_true hlive, if_pos (by decide)]
        have hother : ∀ i, ip < i → setAt mem ip (mem ip + b.size) i = mem i := fun i hi => if_neg (by omega)
        obtain ⟨dead, rest, rfl, hrun, hrest, hsweep⟩ := @ih (setAt mem ip (mem ip + b.size)) (n + b.size) fuel
          (by rw [setAt, if_pos rfl, hn, Nat.add_assoc]) (by omega)
          (by rw [← Nat.add_assoc]; exact h.2.congr fun i hi _ => ⟨rfl, hother i (by omega)⟩)
          (by rw [hother _ (by omega), ← hstop]; congr 1; omega) (by omega) (by rw [List.length_cons] at hfuel; omega)
        refine ⟨b :: dead, rest, rfl, ?_, ?_, ?_⟩
        · rw [hrun, setAt_setAt, sizes_cons, Nat.add_assoc n]
        · rw [sizes_cons, ← Nat.add_assoc (ip + n), Nat.add_assoc ip n]
          exact hrest
        · rw [sweep, if_neg hlive, sizes_cons, ← Nat.add_assoc (ip + n), ← Nat.add_assoc n, Nat.add_assoc ip n]
          exact hsweep

theorem coalesce_spec : ∀ {fuel : Nat} {bs : List CombBlock} {mem : Nat → Nat} {ip : Nat}, MarkedFrom live mem ip bs →
    mem (ip + sizes bs) = 0 → ip + sizes bs < combCacheSize → bs.length < fuel →
    ∃ mem', coalesce fuel mem ip = some mem' ∧ Segment mem' ip (sweep live ip 0 bs) ∧
      mem' (ip + sizes (sweep live ip 0 bs)) = 0 ∧ sizes (sweep live ip 0 bs) ≤ sizes bs ∧
      ∀ i < ip, mem' i = mem i := by
  intro fuel
  induction fuel with
  | zero => exact fun _ _ _ hfuel => absurd hfuel (Nat.not_lt_zero _)
  | succ fuel ih =>
    intro bs mem ip h hstop hroom hfuel
    cases bs with
    | nil => exact ⟨mem, if_pos hstop, trivial, hstop, Nat.le_refl _, fun _ _ => rfl⟩
    | cons b bs =>
      have hroom' := hroom
      unfold combCacheSize at hroom
      rw [sizes_cons, ← Nat.add_assoc] at hstop hroom hroom'
      rw [List.length_cons] at hfuel
      obtain ⟨hpos, hmem, hmod, hne, hflag⟩ := h.1.head (by omega)
      rw [coalesce, if_neg hne, hflag, sweep]
      by_cases hlive : b.isLive live ip = true
      · -- a block that stays
        obtain ⟨mem', hrun, hseg, hend, hle, hframe⟩ := ih h.2 hstop hroom' (by omega)
        obtain ⟨seq, rfl⟩ := CombBlock.eq_used hlive
        rw [hlive, if_pos rfl, if_pos rfl, if_neg (by decide), hmod, List.nil_append, sizes_cons, ← Nat.add_assoc]
        refine ⟨mem', hrun, ⟨⟨?_, fun j hj => ?_⟩, hseg⟩, hend, by rw [sizes_cons]; omega,
          fun i hi => hframe i (by omega)⟩
        · rw [hframe ip (by omega), hmem, hlive, if_pos rfl, Nat.zero_add]
          rfl
        · rw [hframe _ (by rw [CombBlock.size]; omega)]
          exact h.1.2 j hj
      · -- a block that is free from now on
        rw [eq_false_of_ne_true hlive, if_pos (by decide), if_neg Bool.false_ne_true]
        rw [eq_false_of_ne_true hlive, if_neg Bool.false_ne_true] at hmem
        have hlength := length_le_sizes h.2
        obtain ⟨dead, rest, rfl, hrun, hrest, hsweep⟩ := @joinFree_spec live ip bs mem b.size combCacheSize hmem hpos
          h.2 hstop hroom' (by unfold combCacheSize; omega)
        obtain ⟨m, hm⟩ : ∃ m, m = b.size + sizes dead := ⟨_, rfl⟩
        rw [← hm] at hrun hsweep
        rw [Nat.add_assoc ip, ← hm] at hrest
        rw [Nat.zero_add, hsweep, Nat.add_assoc ip, ← hm]
        rw [sizes_append] at hstop hroom hroom'
        have hset : setAt mem ip (0x10000 + m) ip = 0x10000 + m := if_pos rfl
        have hother : ∀ i, i ≠ ip → setAt mem ip (0x10000 + m) i = mem i := fun i hi => if_neg hi
        have hnext : ip + setAt mem ip (0x10000 + m) ip % 0x10000 = ip + m := by
          rw [hset]
          omega
        rw [hrun, Option.bind_some, hnext]
        rcases hrest with rfl | ⟨c, more, rfl, hc⟩
        · -- nothing is behind it
          refine ⟨_, if_pos ?_, trivial, if_pos rfl, Nat.zero_le _, fun i hi => ?_⟩
          · rw [hother _ (by omega), ← hstop, sizes_nil]
            congr 1
            omega
          · rw [setAt, if_neg (by omega), hother i (by omega)]
        · have hmarked := (markedFrom_append.mp h.2).2
          rw [Nat.add_assoc ip, ← hm] at hmarked
          have hmarked' : MarkedFrom live (setAt mem ip (0x10000 + m)) (ip + m) (c :: more) :=
            hmarked.congr fun i hi _ => ⟨rfl, hother i (by omega)⟩
          obtain ⟨-, -, -, hcne, -⟩ := hmarked'.1.head (by rw [sizes_cons] at hroom; omega)
          obtain ⟨mem', hgo, hseg, hend, hle, hframe⟩ := ih hmarked'
            (by rw [hother _ (by omega), ← hstop]; congr 1; omega) (by omega)
            (by rw [List.length_append] at hfuel; omega)
          have hfree : sweep live (ip + m) m (c :: more) = .free m :: sweep live (ip + m) 0 (c :: more) := by
            rw [sweep, sweep, if_pos hc, if_pos hc, if_neg (by omega), if_pos rfl]
            rfl
          rw [if_neg hcne, hfree]
          refine ⟨mem', hgo, ⟨⟨by omega, (hframe ip (by omega)).trans hset⟩, hseg⟩, ?_, ?_, fun i hi => ?_⟩
          · rw [sizes_cons, ← Nat.add_assoc]
            exact hend
          · rw [sizes_cons, sizes_cons, sizes_append, CombBlock.size]
            omega
          · rw [hframe i (by omega), hother i (by omega)]

/-- **What is on the screen stays where it is, and all else is free**: free entries are joined, and there is none at
the end. -/
theorem combCacheClean_spec {screen : List Nat} (h : CombChain mem bs)
    (hscreen : ∀ ch ∈ screen, isCombCode ch = true → ∃ seq, BlockAt bs (ch - ttyCharComb) seq) :
    ∃ mem' bs', combCacheClean mem screen = some mem' ∧ CombChain mem' bs' ∧ Compact bs' ∧
      ∀ k seq, BlockAt bs' k seq ↔ BlockAt bs k seq ∧ ttyCharComb + k ∈ screen := by
  unfold combCacheClean
  have hmarked := h.segment.marked
  by_cases hzero : mem 0 = 0
  · cases bs with
    | nil =>
      refine ⟨mem, [], if_pos hzero, h, trivial, fun k seq => iff_of_false ?_ fun hat => ?_⟩
      · rintro ⟨pre, post, hsplit, -⟩
        exact absurd hsplit (by simp)
      · obtain ⟨⟨pre, post, hsplit, -⟩, -⟩ := hat
        exact absurd hsplit (by simp)
    | cons b bs => exact absurd hzero (h.head [] bs rfl).2.1
  · rw [if_neg hzero]
    have hroom := h.room
    have hstop : mem (0 + sizes bs) = 0 := by
      rw [Nat.zero_add]
      exact h.stop
    obtain ⟨mem₁, hrun₁, hmarked₁, hframe₁⟩ := markFree_spec hmarked hstop (by omega) h.length_le
    obtain ⟨hmarked₂, hstop₂⟩ := hmarked₁.screen hroom
      (by rw [hframe₁ _ (.inr (by omega))]; exact h.stop) hscreen
    obtain ⟨mem', hrun, hseg, hend, hle, -⟩ := coalesce_spec hmarked₂ (by rw [Nat.zero_add]; exact hstop₂)
      (by omega) h.length_le
    rw [Nat.zero_add] at hend
    refine ⟨mem', _, ?_, ⟨hseg, hend, by omega⟩, compact_sweep _ _ _, fun k seq => ?_⟩
    · rw [hrun₁, Option.bind_some, hrun]
    · rw [blockAt_sweep]
      simp only [Nat.zero_add, Bool.false_or, decide_eq_true_iff]
      exact ⟨fun ⟨i, hat, hi, hk⟩ => hk ▸ ⟨hat, hi⟩, fun ⟨hat, hk⟩ => ⟨k, hat, hk, rfl⟩⟩

/-! ## Cells that are written and flushed -/

/-- What happens to the cells of a screen: a character with combining ones is put into one, or another code, or what is
not on the screen is taken out of the cache. -/
inductive CellOp
  | glyph (cell : Nat) (seq : List Nat)
  | code (cell ch : Nat)
  | clean

/-- The sequence fits into the cache, and a code that is put as it is is none of an entry. -/
def CellOp.Fits : CellOp → Prop
  | glyph _ seq => seq.length + 1 < combCacheSize
  | code _ ch => isCombCode ch = false
  | clean => True

/-- The cache, and the codes in the cells. -/
structure CombScreen where
  combCache : Nat → Nat
  cells : List Nat

def CombScreen.exec (s : CombScreen) : CellOp → Option CombScreen
  | .glyph cell seq => (combCacheAdd s.combCache seq).map fun r => ⟨r.1, s.cells.set cell r.2⟩
  | .code cell ch => some { s with cells := s.cells.set cell ch }
  | .clean => (combCacheClean s.combCache s.cells).map fun mem => { s with combCache := mem }

/-- The sequences that have been put into the cells. -/
def CellOp.apply (shown : List (Option (List Nat))) : CellOp → List (Option (List Nat))
  | glyph cell seq => shown.set cell (some seq)
  | code cell _ => shown.set cell none
  | clean => shown

/-- The cell has a code of the sequence, or `TTY_CHAR_BAD`; if it has none, it has no code of an entry. -/
def CellShows (bs : List CombBlock) (ch : Nat) : Option (List Nat) → Prop
  | some seq => ch = ttyCharBad ∨ isCombCode ch = true ∧ BlockAt bs (ch - ttyCharComb) seq
  | none => isCombCode ch = false

/-- All cells show what has been put into them. -/
def CombScreen.Shows (s : CombScreen) (shown : List (Option (List Nat))) : Prop :=
  ∃ bs, CombChain s.combCache bs ∧ s.cells.length = shown.length ∧
    ∀ (i ch : Nat) (o : Option (List Nat)), s.cells[i]? = some ch → shown[i]? = some o → CellShows bs ch o

theorem combCacheAdd_bad (h : combCacheAdd mem seq = some (mem', ttyCharBad)) : mem' = mem := by
  have hne : ∀ ip, ttyCharComb + ip ≠ ttyCharBad := fun ip => by
    unfold ttyCharComb ttyCharBad
    omega
  unfold combCacheAdd at h
  simp only [Option.bind_eq_bind, Option.bind_eq_some_iff] at h
  obtain ⟨found, -, h⟩ := h
  cases found with
  | some ip => exact absurd (Prod.mk.inj (Option.some.inj h)).2 (hne ip)
  | none =>
    obtain ⟨ip, -, h⟩ := Option.bind_eq_some_iff.mp h
    split_ifs at h
    · exact (Prod.mk.inj (Option.some.inj h)).1.symm
    · exact absurd (Prod.mk.inj (Option.some.inj h)).2 (hne ip)
    · exact absurd (Prod.mk.inj (Option.some.inj h)).2 (hne ip)
    · exact absurd (Prod.mk.inj (Option.some.inj h)).2 (hne ip)

theorem CellShows.imp {bs' : List CombBlock} {ch : Nat} {o : Option (List Nat)} (h : CellShows bs ch o)
    (hkeep : ∀ seq, BlockAt bs (ch - ttyCharComb) seq → BlockAt bs' (ch - ttyCharComb) seq) : CellShows bs' ch o := by
  cases o with
  | none => exact h
  | some seq => exact h.imp_right fun hcode => ⟨hcode.1, hkeep seq hcode.2⟩

theorem cells_set {α β : Type} {R : α → β → Prop} {cells : List α} {shown : List β}
    (h : ∀ (i : Nat) (ch : α) (o : β), cells[i]? = some ch → shown[i]? = some o → R ch o) (cell : Nat) {c : α}
    {o' : β} (hnew : R c o') : ∀ (i : Nat) (ch : α) (o : β), (cells.set cell c)[i]? = some ch →
      (shown.set cell o')[i]? = some o → R ch o := by
  intro i ch o hch ho
  rw [List.getElem?_set] at hch ho
  by_cases hi : cell = i
  · rw [if_pos hi] at hch ho
    split_ifs at hch ho
    rw [← Option.some.inj hch, ← Option.some.inj ho]
    exact hnew
  · rw [if_neg hi] at hch ho
    exact h i ch o hch ho

/-- One step. -/
theorem CombScreen.Shows.exec {s : CombScreen} {shown : List (Option (List Nat))} (h : s.Shows shown) {op : CellOp}
    (hop : op.Fits) : ∃ s', s.exec op = some s' ∧ s'.Shows (op.apply shown) := by
  obtain ⟨bs, hchain, hlen, hcells⟩ := h
  cases op with
  | glyph cell seq =>
    obtain ⟨mem', code, hadd, hcode⟩ := combCacheAdd_spec hchain hop
    refine ⟨⟨mem', s.cells.set cell code⟩, by rw [CombScreen.exec, hadd]; rfl, ?_⟩
    rcases hcode with rfl | ⟨bs', k, hchain', hkeep, rfl, hat⟩
    · refine ⟨bs, by rw [combCacheAdd_bad hadd]; exact hchain, ?_, cells_set hcells cell (.inl rfl)⟩
      rw [List.length_set, hlen, CellOp.apply, List.length_set]
    · have hk : ttyCharComb + k - ttyCharComb = k := Nat.add_sub_cancel_left _ _
      have hlive : isCombCode (ttyCharComb + k) = true := by
        have hroom := hchain'.room
        obtain ⟨pre, post, rfl, rfl⟩ := hat
        rw [sizes_append, sizes_cons, CombBlock.size] at hroom
        rw [isCombCode, decide_eq_true_iff]
        omega
      refine ⟨bs', hchain', ?_, cells_set (fun i ch o hch ho => (hcells i ch o hch ho).imp fun _ => hkeep _ _) cell
        (.inr ⟨hlive, by rw [hk]; exact hat⟩)⟩
      rw [List.length_set, hlen, CellOp.apply, List.length_set]
  | code cell ch =>
    refine ⟨_, rfl, bs, hchain, ?_, cells_set hcells cell (show CellShows bs ch none from hop)⟩
    rw [List.length_set, hlen, CellOp.apply, List.length_set]
  | clean =>
    have hcodes : ∀ ch ∈ s.cells, isCombCode ch = true → ∃ seq, BlockAt bs (ch - ttyCharComb) seq := by
      intro ch hch hcomb
      obtain ⟨i, hi⟩ := List.mem_iff_getElem?.mp hch
      obtain ⟨o, ho⟩ : ∃ o, shown[i]? = some o := by
        have hlt := (List.getElem?_eq_some_iff.mp hi).1
        exact ⟨_, List.getElem?_eq_getElem (by omega)⟩
      have hshows := hcells i ch o hi ho
      cases o with
      | none => exact absurd (hcomb.symm.trans hshows) (by decide)
      | some seq =>
        rcases hshows with rfl | ⟨-, hat⟩
        · exact absurd hcomb (by decide)
        · exact ⟨seq, hat⟩
    obtain ⟨mem', bs', hclean, hchain', -, hkept⟩ := combCacheClean_spec hchain hcodes
    refine ⟨⟨mem', s.cells⟩, by rw [CombScreen.exec, hclean]; rfl, bs', hchain', hlen, fun i ch o hch ho => ?_⟩
    have hshows := hcells i ch o hch ho
    cases o with
    | none => exact hshows
    | some seq =>
      refine hshows.imp_right ?_
      rintro ⟨hcomb, hat⟩
      refine ⟨hcomb, (hkept _ _).mpr ⟨hat, ?_⟩⟩
      rw [isCombCode, decide_eq_true_iff] at hcomb
      rw [Nat.add_sub_cancel' hcomb.1]
      exact List.mem_of_getElem? hch

/-- **A cell shows what was last put into it**, after whatever has been put into other cells and however often the cache
was cleaned: its code is where the sequence is in the cache, if the sequence found room there. -/
theorem combScreen_shows {ops : List CellOp} (hops : ∀ op ∈ ops, op.Fits) {cells : List Nat}
    (hcells : ∀ ch ∈ cells, isCombCode ch = false) :
    ∃ s, Lib.run CombScreen.exec ⟨fun _ => 0, cells⟩ ops = some s ∧ s.cells.length = cells.length ∧
      ∀ (i ch : Nat) (seq : List Nat), s.cells[i]? = some ch →
        (ops.foldl CellOp.apply (List.replicate cells.length none))[i]? = some (some seq) →
        ch = ttyCharBad ∨
          ∃ k, ch = ttyCharComb + k ∧ s.combCache k = seq.length + 1 ∧ CombAt s.combCache (k + 1) seq := by
  have hstart : CombScreen.Shows ⟨fun _ => 0, cells⟩ (List.replicate cells.length none) := by
    refine ⟨[], combChain_empty, List.length_replicate.symm, fun i ch o hch ho => ?_⟩
    obtain rfl := List.eq_of_mem_replicate (List.mem_of_getElem? ho)
    exact hcells ch (List.mem_of_getElem? hch)
  obtain ⟨s, hrun, bs, hchain, hlen, hshows⟩ := Lib.run_refines (fun s shown op h hop => h.exec hop) ops _ _ hstart
    ((Lib.RunMeets.true CombScreen.exec ops _).and_of_mem hops |>.imp fun _ _ h => h.2)
  refine ⟨s, hrun, ?_, fun i ch seq hch hseq => ?_⟩
  · have hkept : ∀ (ops : List CellOp) (shown : List (Option (List Nat))),
        (ops.foldl CellOp.apply shown).length = shown.length := by
      intro ops
      induction ops with
      | nil => exact fun _ => rfl
      | cons op ops ih =>
        intro shown
        rw [List.foldl_cons, ih]
        cases op <;> simp [CellOp.apply]
    rw [hlen, hkept, List.length_replicate]
  · refine (hshows i ch _ hch hseq).imp_right fun ⟨hcomb, hat⟩ => ?_
    rw [isCombCode, decide_eq_true_iff] at hcomb
    exact ⟨ch - ttyCharComb, (Nat.add_sub_cancel' hcomb.1).symm, hchain.blockAt hat⟩

/-- The second cell keeps its accent when the entry of the first one is freed. -/
theorem combScreen_shows_redrawn : ∃ s,
    Lib.run CombScreen.exec ⟨fun _ => 0, [32, 32]⟩ [.glyph 0 [97, 769], .glyph 1 [101, 769], .code 0 97, .clean] = some s ∧
      s.cells.length = 2 ∧ ∀ (i ch : Nat) (seq : List Nat), s.cells[i]? = some ch →
        [none, some [101, 769]][i]? = some (some seq) →
        ch = ttyCharBad ∨
          ∃ k, ch = ttyCharComb + k ∧ s.combCache k = seq.length + 1 ∧ CombAt s.combCache (k + 1) seq :=
  combScreen_shows (by simp [CellOp.Fits, combCacheSize, isCombCode, ttyCharComb]) (by decide)

end Qemacs
