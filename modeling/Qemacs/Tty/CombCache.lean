import Mathlib.Data.List.Basic
import Mathlib.Algebra.BigOperators.Group.List.Basic
import Mathlib.Algebra.Ring.Nat

/-!
# The cache of combinations

A terminal cell has room for one code. A character with combining ones behind it is put into `comb_cache`, and its
code is where it is there. The cache is a chain of blocks up to a 0: a block is its size and a sequence, or, with a
flag in the size, a free one.

`combCacheAdd_spec` is what the rest depends on: a sequence has a code of its own from then on, and no other sequence
loses its code.
-/

namespace Qemacs

def ttyCharComb : Nat := 0x200000

def ttyCharBad : Nat := 0xfffd

def combCacheSize : Nat := 2048

/-! ## `comb_cache_add` -/

/-- These elements are in memory from `i` on. -/
def CombAt (mem : Nat → Nat) (i : Nat) (seq : List Nat) : Prop := ∀ j (h : j < seq.length), mem (i + j) = seq[j]

instance (mem : Nat → Nat) (i : Nat) (seq : List Nat) : Decidable (CombAt mem i seq) :=
  inferInstanceAs (Decidable (∀ j (_ : j < seq.length), _))

/-- The first loop: the block that has the sequence, if there is one. -/
def findSeq (mem : Nat → Nat) (seq : List Nat) : Nat → Nat → Option (Option Nat)
  | 0, _ => none
  | fuel + 1, ip =>
      if mem ip = 0 then some none
      else if mem ip = seq.length + 1 ∧ CombAt mem (ip + 1) seq then some (some ip)
      else findSeq mem seq fuel (ip + mem ip % 0x10000)

/-- The second loop: a free block that is large enough, or the end. -/
def findFree (mem : Nat → Nat) (len : Nat) : Nat → Nat → Option Nat
  | 0, _ => none
  | fuel + 1, ip =>
      if mem ip = 0 then some ip
      else if mem ip ≥ 0x10001 + len then some ip
      else findFree mem len fuel (ip + mem ip % 0x10000)

/-- `*ip = len + 1; blockcpy(ip + 1, seq, len)`. -/
def putSeq (mem : Nat → Nat) (ip : Nat) (seq : List Nat) : Nat → Nat := fun i =>
  if i = ip then seq.length + 1 else if ip < i ∧ i ≤ ip + seq.length then seq.getD (i - ip - 1) 0 else mem i

def setAt (mem : Nat → Nat) (i v : Nat) : Nat → Nat := fun j => if j = i then v else mem j

/-- `comb_cache_add`: the cache, and the code. -/
def combCacheAdd (mem : Nat → Nat) (seq : List Nat) : Option ((Nat → Nat) × Nat) := do
  match ← findSeq mem seq combCacheSize 0 with
  | some ip => some (mem, ttyCharComb + ip)
  | none =>
      let ip ← findFree mem seq.length combCacheSize 0
      if mem ip = 0 then
        if ip + seq.length + 1 ≥ combCacheSize then some (mem, ttyCharBad)
        else some (putSeq (setAt mem (ip + seq.length + 1) 0) ip seq, ttyCharComb + ip)
      else
        let mem := if mem ip > 0x10001 + seq.length then setAt mem (ip + seq.length + 1) (mem ip - (seq.length + 1))
          else mem
        some (putSeq mem ip seq, ttyCharComb + ip)

/-! ## Blocks -/

inductive CombBlock
  | used (seq : List Nat)
  | free (size : Nat)

def CombBlock.size : CombBlock → Nat
  | .used seq => seq.length + 1
  | .free size => size

def sizes (bs : List CombBlock) : Nat := (bs.map CombBlock.size).sum

@[simp] theorem sizes_nil : sizes [] = 0 := rfl

@[simp] theorem sizes_cons (b : CombBlock) (bs : List CombBlock) : sizes (b :: bs) = b.size + sizes bs := by
  rw [sizes, List.map_cons, List.sum_cons]
  rfl

@[simp] theorem sizes_append (bs cs : List CombBlock) : sizes (bs ++ cs) = sizes bs + sizes cs := by
  rw [sizes, List.map_append, List.sum_append]
  rfl

def CombBlock.In (mem : Nat → Nat) (ip : Nat) : CombBlock → Prop
  | .used seq => mem ip = seq.length + 1 ∧ CombAt mem (ip + 1) seq
  | .free size => 0 < size ∧ mem ip = 0x10000 + size

/-- These blocks are in memory, one after the other. -/
def Segment (mem : Nat → Nat) : Nat → List CombBlock → Prop
  | _, [] => True
  | ip, b :: bs => b.In mem ip ∧ Segment mem (ip + b.size) bs

theorem segment_append {mem : Nat → Nat} {bs cs : List CombBlock} : ∀ {ip : Nat},
    Segment mem ip (bs ++ cs) ↔ Segment mem ip bs ∧ Segment mem (ip + sizes bs) cs := by
  induction bs with
  | nil => intro ip; simp [Segment]
  | cons b bs ih =>
    intro ip
    rw [List.cons_append, Segment, Segment, ih, sizes_cons, Nat.add_assoc, and_assoc]

theorem CombBlock.In.size_pos {mem : Nat → Nat} {ip : Nat} {b : CombBlock} (h : b.In mem ip) : 0 < b.size := by
  cases b with
  | used seq => exact Nat.succ_pos _
  | free size => exact h.1

theorem CombBlock.In.congr {mem mem' : Nat → Nat} {ip : Nat} {b : CombBlock} (h : b.In mem ip)
    (heq : ∀ i, ip ≤ i → i < ip + b.size → mem' i = mem i) : b.In mem' ip := by
  have hpos := h.size_pos
  have hhead := heq ip (Nat.le_refl ip) (by omega)
  cases b with
  | used seq =>
    refine ⟨hhead.trans h.1, fun j hj => ?_⟩
    rw [heq (ip + 1 + j) (by omega) (by rw [CombBlock.size]; omega)]
    exact h.2 j hj
  | free size => exact ⟨h.1, hhead.trans h.2⟩

theorem Segment.congr {mem mem' : Nat → Nat} : ∀ {bs : List CombBlock} {ip : Nat}, Segment mem ip bs →
    (∀ i, ip ≤ i → i < ip + sizes bs → mem' i = mem i) → Segment mem' ip bs := by
  intro bs
  induction bs with
  | nil => intro ip _ _; trivial
  | cons b bs ih =>
    intro ip h heq
    rw [sizes_cons] at heq
    refine ⟨h.1.congr fun i hi hlt => heq i hi (by omega), ih h.2 fun i hi hlt => heq i (by omega) (by omega)⟩

structure CombChain (mem : Nat → Nat) (bs : List CombBlock) : Prop where
  segment : Segment mem 0 bs
  stop : mem (sizes bs) = 0
  room : sizes bs < combCacheSize

theorem combChain_empty : CombChain (fun _ => 0) [] := ⟨trivial, rfl, by decide⟩

/-- The sequence has its block at `k`. -/
def BlockAt (bs : List CombBlock) (k : Nat) (seq : List Nat) : Prop :=
  ∃ pre post, bs = pre ++ .used seq :: post ∧ sizes pre = k

variable {seq : List Nat}

theorem CombChain.blockAt {mem : Nat → Nat} {bs : List CombBlock} (h : CombChain mem bs) {k : Nat}
    (hk : BlockAt bs k seq) : mem k = seq.length + 1 ∧ CombAt mem (k + 1) seq := by
  obtain ⟨pre, post, rfl, rfl⟩ := hk
  have hseg := (segment_append.mp h.segment).2.1
  rwa [Nat.zero_add] at hseg

section Walk

variable {mem : Nat → Nat} {bs : List CombBlock}

theorem CombChain.length_le (h : CombChain mem bs) : bs.length < combCacheSize := by
  have hle : ∀ {cs : List CombBlock} {ip : Nat}, Segment mem ip cs → cs.length ≤ sizes cs := by
    intro cs
    induction cs with
    | nil => exact fun _ => Nat.le_refl 0
    | cons c cs ih =>
      intro ip hseg
      have hpos := hseg.1.size_pos
      have hrest := ih hseg.2
      rw [List.length_cons, sizes_cons]
      omega
  exact Nat.lt_of_le_of_lt (hle h.segment) h.room

theorem CombChain.head (h : CombChain mem bs) (pre post : List CombBlock) {b : CombBlock}
    (hbs : bs = pre ++ b :: post) :
    b.In mem (sizes pre) ∧ mem (sizes pre) ≠ 0 ∧ sizes pre + mem (sizes pre) % 0x10000 = sizes (pre ++ [b]) := by
  subst hbs
  have hin := (segment_append.mp h.segment).2.1
  rw [Nat.zero_add] at hin
  have hroom := h.room
  rw [sizes_append, sizes_cons] at hroom
  unfold combCacheSize at hroom
  have hpos := hin.size_pos
  have hmem : mem (sizes pre) ≠ 0 ∧ mem (sizes pre) % 0x10000 = b.size := by
    cases b with
    | used seq =>
      rw [hin.1]
      exact ⟨Nat.succ_ne_zero _, Nat.mod_eq_of_lt (by rw [CombBlock.size] at hroom; omega)⟩
    | free size =>
      rw [hin.2]
      rw [CombBlock.size] at hroom hpos ⊢
      omega
  refine ⟨hin, hmem.1, ?_⟩
  rw [hmem.2, sizes_append, sizes_cons, sizes_nil, Nat.add_zero]

theorem CombChain.findSeq (h : CombChain mem bs) (hlen : seq.length + 1 < combCacheSize) :
    ∀ {post pre : List CombBlock} {fuel : Nat}, bs = pre ++ post → post.length < fuel →
      findSeq mem seq fuel (sizes pre) = some none ∨
        ∃ k, findSeq mem seq fuel (sizes pre) = some (some k) ∧ BlockAt bs k seq := by
  intro post
  induction post with
  | nil =>
    intro pre fuel hbs hfuel
    cases fuel with
    | zero => exact absurd hfuel (Nat.not_lt_zero _)
    | succ fuel =>
      rw [List.append_nil] at hbs
      rw [Qemacs.findSeq, if_pos (by rw [← hbs]; exact h.stop)]
      exact .inl rfl
  | cons b post ih =>
    intro pre fuel hbs hfuel
    cases fuel with
    | zero => exact absurd hfuel (Nat.not_lt_zero _)
    | succ fuel =>
      obtain ⟨hin, hne, hnext⟩ := h.head pre post hbs
      rw [Qemacs.findSeq, if_neg hne, hnext]
      by_cases hfound : mem (sizes pre) = seq.length + 1 ∧ CombAt mem (sizes pre + 1) seq
      · rw [if_pos hfound]
        refine .inr ⟨_, rfl, pre, post, ?_, rfl⟩
        cases b with
        | used seq' =>
          have hlength : seq'.length = seq.length := by
            have := hin.1.symm.trans hfound.1
            omega
          have heq : seq' = seq := List.ext_getElem hlength fun j hj hj' =>
            (hin.2 j hj).symm.trans (hfound.2 j hj')
          rw [hbs, heq]
        | free size =>
          have := hin.2.symm.trans hfound.1
          unfold combCacheSize at hlen
          omega
      · rw [if_neg hfound]
        exact ih (by rw [hbs]; simp) (by rw [List.length_cons] at hfuel; omega)

theorem CombChain.findFree (h : CombChain mem bs) (len : Nat) :
    ∀ {post pre : List CombBlock} {fuel : Nat}, bs = pre ++ post → post.length < fuel →
      findFree mem len fuel (sizes pre) = some (sizes bs) ∨
        ∃ front size back, findFree mem len fuel (sizes pre) = some (sizes front) ∧ bs = front ++ .free size :: back ∧
          len + 1 ≤ size := by
  intro post
  induction post with
  | nil =>
    intro pre fuel hbs hfuel
    cases fuel with
    | zero => exact absurd hfuel (Nat.not_lt_zero _)
    | succ fuel =>
      rw [List.append_nil] at hbs
      rw [Qemacs.findFree, if_pos (by rw [← hbs]; exact h.stop), hbs]
      exact .inl rfl
  | cons b post ih =>
    intro pre fuel hbs hfuel
    cases fuel with
    | zero => exact absurd hfuel (Nat.not_lt_zero _)
    | succ fuel =>
      obtain ⟨hin, hne, hnext⟩ := h.head pre post hbs
      rw [Qemacs.findFree, if_neg hne, hnext]
      by_cases hlarge : mem (sizes pre) ≥ 0x10001 + len
      · rw [if_pos hlarge]
        refine .inr ?_
        cases b with
        | used seq =>
          have hroom := h.room
          rw [hbs, sizes_append, sizes_cons, CombBlock.size] at hroom
          rw [hin.1] at hlarge
          unfold combCacheSize at hroom
          omega
        | free size =>
          rw [hin.2] at hlarge
          exact ⟨pre, size, post, rfl, hbs, by omega⟩
      · rw [if_neg hlarge]
        exact ih (by rw [hbs]; simp) (by rw [List.length_cons] at hfuel; omega)

end Walk

/-! ## What a new sequence changes -/

theorem putSeq_in (mem : Nat → Nat) (ip : Nat) (seq : List Nat) : (CombBlock.used seq).In (putSeq mem ip seq) ip := by
  refine ⟨if_pos rfl, fun j hj => ?_⟩
  rw [putSeq, if_neg (by omega), if_pos (by omega), show ip + 1 + j - ip - 1 = j by omega,
    List.getD_eq_getElem?_getD, List.getElem?_eq_getElem hj, Option.getD_some]

theorem putSeq_outside {mem : Nat → Nat} {ip i : Nat} (h : i < ip ∨ ip + seq.length < i) :
    putSeq mem ip seq i = mem i := by
  rw [putSeq, if_neg (by omega), if_neg (by omega)]

theorem BlockAt.replace {front back mid : List CombBlock} {size k : Nat}
    (h : BlockAt (front ++ .free size :: back) k seq) (hmid : sizes mid = size) :
    BlockAt (front ++ (mid ++ back)) k seq := by
  obtain ⟨pre, post, hsplit, rfl⟩ := h
  rcases List.append_eq_append_iff.mp hsplit with ⟨more, rfl, hpost⟩ | ⟨more, rfl, hpost⟩
  · cases more with
    | nil => exact absurd hpost (by simp)
    | cons b more =>
      rw [List.cons_append, List.cons_eq_cons] at hpost
      obtain ⟨rfl, rfl⟩ := hpost
      refine ⟨front ++ (mid ++ more), post, by simp, ?_⟩
      rw [sizes_append, sizes_append, sizes_append, sizes_cons, hmid]
      rfl
  · cases more with
    | nil => exact absurd hpost (by simp)
    | cons b more =>
      rw [List.cons_append, List.cons_eq_cons] at hpost
      obtain ⟨rfl, -⟩ := hpost
      exact ⟨pre, more ++ (mid ++ back), by simp, rfl⟩

theorem BlockAt.append {bs more : List CombBlock} {k : Nat} {seq : List Nat} (h : BlockAt bs k seq) :
    BlockAt (bs ++ more) k seq := by
  obtain ⟨pre, post, rfl, hk⟩ := h
  exact ⟨pre, post ++ more, by simp, hk⟩

/-- **A sequence that finds room has a code, and the other sequences keep theirs.** -/
theorem combCacheAdd_spec {mem : Nat → Nat} {bs : List CombBlock} (h : CombChain mem bs)
    (hlen : seq.length + 1 < combCacheSize) :
    ∃ mem' code, combCacheAdd mem seq = some (mem', code) ∧
      (code = ttyCharBad ∨ ∃ bs' k, CombChain mem' bs' ∧ (∀ k' seq', BlockAt bs k' seq' → BlockAt bs' k' seq') ∧
        code = ttyCharComb + k ∧ BlockAt bs' k seq) := by
  have hfuel := h.length_le
  have hroom := h.room
  unfold combCacheAdd
  have hnil : bs = [] ++ bs := rfl
  rcases h.findSeq hlen hnil hfuel with hfind | ⟨k, hfind, hat⟩
  · rw [sizes_nil] at hfind
    simp only [hfind, Option.bind_eq_bind, Option.bind_some]
    rcases h.findFree seq.length hnil hfuel with hfree | ⟨front, size, back, hfree, rfl, hsize⟩
    · rw [sizes_nil] at hfree
      rw [hfree, Option.bind_some, if_pos h.stop]
      split_ifs with hfull
      · exact ⟨_, _, rfl, .inl rfl⟩
      · refine ⟨_, _, rfl, .inr ⟨bs ++ [.used seq], sizes bs, ⟨?_, ?_, ?_⟩, fun _ _ hat => hat.append, rfl, bs, [],
          rfl, rfl⟩⟩
        · refine segment_append.mpr ⟨h.segment.congr fun i _ hi => ?_, ?_, trivial⟩
          · rw [putSeq_outside (.inl (by omega)), setAt, if_neg (by omega)]
          · rw [Nat.zero_add]
            exact putSeq_in _ _ _
        · rw [sizes_append, sizes_cons, sizes_nil, CombBlock.size, putSeq_outside (.inr (by omega)), setAt,
            if_pos (by omega)]
        · rw [sizes_append, sizes_cons, sizes_nil, CombBlock.size]
          omega
    · rw [sizes_nil] at hfree
      obtain ⟨hin, hne, -⟩ := h.head front back rfl
      rw [hfree, Option.bind_some, if_neg hne]
      obtain ⟨hfront, -, hback⟩ := segment_append.mp h.segment
      rw [Nat.zero_add] at hback
      have hstop := h.stop
      simp only [sizes_append, sizes_cons, CombBlock.size] at hroom hstop
      rw [hin.2]
      by_cases hsplit : 0x10000 + size > 0x10001 + seq.length
      · rw [if_pos hsplit]
        refine ⟨_, _, rfl, .inr ⟨front ++ ([.used seq, .free (size - (seq.length + 1))] ++ back), sizes front,
          ⟨?_, ?_, ?_⟩, fun _ _ hat => hat.replace (by simp [CombBlock.size]; omega), rfl, front, _, rfl, rfl⟩⟩
        · refine segment_append.mpr ⟨hfront.congr fun i _ hi => ?_, ?_, ⟨?_, ?_⟩, ?_⟩
          · rw [putSeq_outside (.inl (by omega)), setAt, if_neg (by omega)]
          · rw [Nat.zero_add]
            exact putSeq_in _ _ _
          · omega
          · rw [Nat.zero_add, CombBlock.size, putSeq_outside (.inr (by omega)), setAt, if_pos (by omega)]
            omega
          · rw [Nat.zero_add]
            simp only [CombBlock.size] at hback ⊢
            rw [show sizes front + (seq.length + 1) + (size - (seq.length + 1)) = sizes front + size by omega]
            refine hback.congr fun i hi _ => ?_
            rw [putSeq_outside (.inr (by omega)), setAt, if_neg (by omega)]
        · simp only [sizes_append, sizes_cons, sizes_nil, CombBlock.size]
          rw [show sizes front + (seq.length + 1 + (size - (seq.length + 1) + 0) + sizes back)
            = sizes front + (size + sizes back) by omega, putSeq_outside (.inr (by omega)), setAt, if_neg (by omega)]
          exact hstop
        · simp only [sizes_append, sizes_cons, sizes_nil, CombBlock.size]
          omega
      · rw [if_neg hsplit]
        have hexact : size = seq.length + 1 := by omega
        subst hexact
        refine ⟨_, _, rfl, .inr ⟨front ++ ([.used seq] ++ back), sizes front, ⟨?_, ?_, ?_⟩,
          fun _ _ hat => hat.replace (by simp [CombBlock.size]), rfl, front, _, rfl, rfl⟩⟩
        · refine segment_append.mpr ⟨hfront.congr fun i _ hi => putSeq_outside (.inl (by omega)), ?_, ?_⟩
          · rw [Nat.zero_add]
            exact putSeq_in _ _ _
          · rw [Nat.zero_add]
            simp only [CombBlock.size] at hback ⊢
            exact hback.congr fun i hi _ => putSeq_outside (.inr (by omega))
        · simp only [sizes_append, sizes_cons, sizes_nil, CombBlock.size]
          rw [putSeq_outside (.inr (by omega))]
          simpa using hstop
        · simp only [sizes_append, sizes_cons, sizes_nil, CombBlock.size]
          omega
  · rw [sizes_nil] at hfind
    simp only [hfind, Option.bind_eq_bind, Option.bind_some]
    exact ⟨_, _, rfl, .inr ⟨bs, k, h, fun _ _ hat => hat, rfl, hat⟩⟩

end Qemacs
