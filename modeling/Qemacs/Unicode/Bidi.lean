import Mathlib.Data.List.Basic
import Mathlib.Logic.Function.Iterate

/-!
# Embedding levels of a line

`bidir_analyze_string` works on a line as a list of runs of characters of one type. Its passes resolve the types
in the order of the standard: the embedding characters give the levels, then the weak types, the neutral types
and at last the levels that the types imply. After every pass `compact_list` joins neighbours of one type, and it
looks at nothing but the type. What comes out is walked by the display loop along with the characters: a run holds
from its position on until the position of the next.

The level of a run is attached to it by the first pass. `Nesting` is what the embedding characters themselves
say, without a limit on the depth.
-/

namespace Qemacs

/-- `BidirCharType`. The last seven are only used internally. -/
inductive BidirCharType
  | ltr | rtl | wl | wr | en | es | et | an | cs | bs | ss | ws | al | nsm | bn | on
  | lre | rle | pdf | lro | rlo
  | sot | eot | n | e | ctl | eo | del
  deriving DecidableEq, Repr

structure BidirTypeLink where
  type : BidirCharType
  pos : Nat
  len : Nat
  level : Nat
  deriving DecidableEq, Repr

namespace BidirCharType

/-- The characters that open an embedding. -/
def isEmbedding : BidirCharType → Bool
  | lre | rle | lro | rlo => true
  | _ => false

/-- The characters that change the nesting and are not displayed. -/
def isFormat : BidirCharType → Bool
  | pdf => true
  | t => t.isEmbedding

/-- Numbers are treated as though they were R. -/
def isRightward : BidirCharType → Bool
  | en | an | rtl => true
  | _ => false

def isNeutral : BidirCharType → Bool
  | ws | on | es | et | cs | bn => true
  | _ => false

/-- The least greater even level for LRE and LRO, else the least greater odd one. -/
def embedLevel (level : Nat) : BidirCharType → Nat
  | lre | lro => 2 * ((level + 2) / 2)
  | _ => 2 * ((level + 1) / 2) + 1

def overrideOf : BidirCharType → BidirCharType
  | lro => ltr
  | rlo => rtl
  | _ => n

end BidirCharType

open BidirCharType

/-! ## The passes -/

/-- `compact_list`, with the link `q` that is being written and those still to be read. -/
def compactFrom (q : BidirTypeLink) : List BidirTypeLink → List BidirTypeLink
  | [] => [q]
  | p :: rest =>
    if q.type = .eot then [q]
    else if q.type = .del then compactFrom p rest
    else if p.type = q.type then compactFrom { q with len := q.len + p.len } rest
    else q :: compactFrom p rest

def compactList : List BidirTypeLink → List BidirTypeLink
  | [] => []
  | p :: rest => compactFrom p rest

/-- The type of the link at the head of what follows. -/
def nextType (rest : List BidirTypeLink) : BidirCharType := (rest.head?.map BidirTypeLink.type).getD .eot

/-- The search for the first strong character. -/
def strongBase : List BidirTypeLink → BidirCharType
  | [] => n
  | pp :: rest =>
    if pp.type = .eot then n
    else if pp.type ∈ [rtl, rle, rlo] then rtl
    else if pp.type ∈ [ltr, lre, lro] then ltr
    else strongBase rest

/-- `base_dir` and `base_level`. -/
def findBase (tab : List BidirTypeLink) (dir : BidirCharType) : BidirCharType × Nat :=
  if dir = ltr then (ltr, 0)
  else if dir = rtl then (rtl, 1)
  else
    match strongBase tab with
    | rtl => (rtl, 1)
    | ltr => (ltr, 0)
    | _ =>
      if dir = wr then (rtl, 1)
      else if dir = wl then (ltr, 0)
      else (n, 0)

/-- `STACK_SIZE`. -/
def bidirStackSize : Nat := 64

/-- `level`, `override` and the two stacks of the first pass. -/
structure ExplicitState where
  level : Nat
  override : BidirCharType
  stack : List (Nat × BidirCharType)

namespace ExplicitState

variable (st : ExplicitState)

/-- An embedding character, unless the stack is full. -/
def push (t : BidirCharType) : ExplicitState :=
  if st.stack.length < bidirStackSize then
    ⟨t.embedLevel st.level, t.overrideOf, (st.level, st.override) :: st.stack⟩
  else st

def pop : ExplicitState :=
  match st.stack with
  | [] => st
  | (level, override) :: stack => ⟨level, override, stack⟩

/-- One turn of the first pass: the state after the run, and what becomes of the run. -/
def turn (pp : BidirTypeLink) : ExplicitState × BidirTypeLink :=
  if pp.type.isEmbedding then ((fun s => s.push pp.type)^[pp.len] st, { pp with type := .del })
  else if pp.type = .pdf then (pop^[pp.len] st, { pp with type := .del })
  else
    (st, { pp with level := st.level, type := if st.override = n then pp.type else st.override })

end ExplicitState

/-- The first pass, from `type_rl_list + 1` on. -/
def explicitPass (st : ExplicitState) : List BidirTypeLink → List BidirTypeLink
  | [] => []
  | pp :: rest => if pp.type = .eot then pp :: rest else (st.turn pp).2 :: explicitPass (st.turn pp).1 rest

/-- The turn of the weak types: what the types of `pp-1` and of `pp` become. The rules that are one `continue` come
before W5, and leave W7 out. -/
def weakTurn (lastStrong prevType thisType nextType : BidirCharType) (len : Nat) : BidirCharType × BidirCharType :=
  -- W1 and W2
  let t := if thisType = nsm then (if prevType = .sot then n else prevType) else thisType
  let t := if thisType = n ∧ lastStrong = al then an else t
  -- W3
  let prev := if prevType = al then rtl else prevType
  -- W4
  if len = 1 ∧ prevType = nextType ∧ prevType = en ∧ (thisType = es ∨ thisType = cs) then (prev, en)
  else if len = 1 ∧ prevType = nextType ∧ prevType = an ∧ thisType = cs then (prev, an)
  else
    -- W5 and W6
    let t := if thisType = et ∧ (nextType = en ∨ prevType = en) then en else t
    let t := if t ∈ [et, cs, es] then on else t
    -- W7
    (if prevType = en ∧ lastStrong = ltr then ltr else prev, t)

/-- The pass of the weak types, with `pp-1`, which may still change. -/
def weakPass (lastStrong : BidirCharType) (prev : BidirTypeLink) : List BidirTypeLink → List BidirTypeLink
  | [] => [prev]
  | pp :: rest =>
    if pp.type = .eot then prev :: pp :: rest
    else
      let lastStrong := if prev.type ∈ [al, rtl, ltr] then prev.type else lastStrong
      let ts := weakTurn lastStrong prev.type pp.type (nextType rest) pp.len
      { prev with type := ts.1 } :: weakPass lastStrong { pp with type := ts.2 } rest

/-- All separators and other neutral types become plain neutrals. -/
def collapsePass : List BidirTypeLink → List BidirTypeLink
  | [] => []
  | pp :: rest =>
    if pp.type = .eot then pp :: rest
    else { pp with type := if pp.type.isNeutral then n else pp.type } :: collapsePass rest

def neutralTurn (prevType thisType nextType : BidirCharType) : BidirCharType :=
  if thisType = n then
    if prevType = ltr ∧ nextType = ltr then ltr
    else if prevType.isRightward ∧ nextType.isRightward then rtl
    else e
  else thisType

/-- The pass of the neutral types, with the type of `pp-1`. -/
def neutralPass (prevType : BidirCharType) : List BidirTypeLink → List BidirTypeLink
  | [] => []
  | pp :: rest =>
    if pp.type = .eot then pp :: rest
    else
      let t := neutralTurn prevType pp.type (nextType rest)
      { pp with type := t } :: neutralPass t rest

/-- What a type adds to the level of its run. -/
def implicitLevel (prevType thisType : BidirCharType) (level : Nat) : Nat :=
  if level % 2 = 0 then
    if thisType = rtl then level + 1
    else if thisType = an then level + 2
    else if prevType ≠ ltr ∧ thisType = en then level + 2
    else level
  else if thisType ∈ [ltr, an, en] then level + 1
  else level

/-- The pass of the implicit levels, with the type of `pp-1`. -/
def implicitPass (prevType : BidirCharType) : List BidirTypeLink → List BidirTypeLink
  | [] => []
  | pp :: rest =>
    if pp.type = .eot then pp :: rest
    else { pp with level := implicitLevel prevType pp.type pp.level } :: implicitPass pp.type rest

/-- `max_level` of the last pass. -/
def maxLevel (level : Nat) : List BidirTypeLink → Nat
  | [] => level
  | pp :: rest => if pp.type = .eot then level else maxLevel (max level pp.level) rest

/-! ## The analysis -/

/-- Runs with the link before them that marks the start and the one behind them that marks the end. Positions
increase from run to run. -/
structure BidirTypeList where
  start : BidirTypeLink
  runs : List BidirTypeLink
  stop : BidirTypeLink
  start_type : start.type = .sot
  stop_type : stop.type = .eot
  types : ∀ r ∈ runs, r.type ≠ .sot ∧ r.type ≠ .eot ∧ r.type ≠ .del
  increasing : ((runs ++ [stop]).map BidirTypeLink.pos).Pairwise (· < ·)

namespace BidirTypeList

variable (t : BidirTypeList) (dir : BidirCharType)

/-- The array `type_rl_list`. -/
def links : List BidirTypeLink := t.start :: t.runs ++ [t.stop]

/-- `base_dir` and `base_level`. -/
def base : BidirCharType × Nat := findBase t.links dir

/-- The runs after the first pass, and after each of the following ones. The link at the start stays where it is. -/
def afterExplicit : List BidirTypeLink := explicitPass ⟨(t.base dir).2, n, []⟩ (t.runs ++ [t.stop])

def afterWeak : List BidirTypeLink :=
  match compactList (t.start :: t.afterExplicit dir) with
  | [] => []
  | start :: rest => weakPass (t.base dir).1 start rest

def afterCollapse : List BidirTypeLink :=
  match compactList (t.afterWeak dir) with
  | [] => []
  | start :: rest => start :: collapsePass rest

def afterNeutral : List BidirTypeLink :=
  match compactList (t.afterCollapse dir) with
  | [] => []
  | start :: rest => start :: neutralPass start.type rest

def afterImplicit : List BidirTypeLink :=
  match compactList (t.afterNeutral dir) with
  | [] => []
  | start :: rest => start :: implicitPass start.type rest

/-- `bidir_analyze_string`: the list, `*pbase_dir` and `*pmax_level`. -/
def bidirAnalyzeString : List BidirTypeLink × BidirCharType × Nat :=
  (compactList (t.afterImplicit dir), (t.base dir).1, maxLevel (t.base dir).2 (t.afterImplicit dir).tail)

end BidirTypeList

/-! ## The levels of the characters -/

/-- `bd` for the character at `offset0`. -/
def advanceBd (offset0 : Nat) : List BidirTypeLink → List BidirTypeLink
  | b0 :: b1 :: rest => if b1.pos ≤ offset0 then b1 :: rest else b0 :: b1 :: rest
  | bd => bd

/-- The `embedding_level` of each character, at these offsets in turn. -/
def embeddingLevels (bd : List BidirTypeLink) : List Nat → List Nat
  | [] => []
  | offset0 :: offsets =>
    let bd := advanceBd offset0 bd
    (bd.head?.map BidirTypeLink.level).getD 0 :: embeddingLevels bd offsets

/-! ## What the characters say -/

/-- The level at a place, and those of the embeddings around it. -/
structure Nesting where
  level : Nat
  outer : List Nat
  deriving DecidableEq

namespace Nesting

def read (s : Nesting) (t : BidirCharType) : Nesting :=
  if t.isEmbedding then ⟨t.embedLevel s.level, s.level :: s.outer⟩
  else if t = .pdf then
    match s.outer with
    | [] => s
    | level :: outer => ⟨level, outer⟩
  else s

/-- The nesting is never deeper than the stack. -/
def Fits (s : Nesting) : List BidirCharType → Prop
  | [] => True
  | t :: ts => (s.read t).outer.length ≤ bidirStackSize ∧ (s.read t).Fits ts

instance : ∀ (s : Nesting) (ts : List BidirCharType), Decidable (s.Fits ts)
  | _, [] => isTrue trivial
  | s, t :: ts =>
    have := instDecidableFits (s.read t) ts
    inferInstanceAs (Decidable (_ ∧ _))

end Nesting

/-- The types of the characters of some runs. -/
def charTypes (runs : List BidirTypeLink) : List BidirCharType :=
  runs.flatMap fun r => List.replicate r.len r.type

/-- Neighbours of one type have one level, those that are deleted apart. -/
def SameLevels (tab : List BidirTypeLink) : Prop :=
  tab.IsChain fun r q => r.type ≠ .del → q.type = r.type → q.level = r.level

instance (tab : List BidirTypeLink) : Decidable (SameLevels tab) := inferInstanceAs (Decidable (List.IsChain _ tab))

namespace BidirTypeList

variable (t : BidirTypeList) (dir : BidirCharType)

/-- The nesting behind some runs at the start of the list. -/
def nestingAfter (before : List BidirTypeLink) : Nesting :=
  (charTypes before).foldl Nesting.read ⟨(t.base dir).2, []⟩

/-- The embeddings are nested within the stack. -/
def WithinStack : Prop := Nesting.Fits ⟨(t.base dir).2, []⟩ (charTypes t.runs)

instance : Decidable (t.WithinStack dir) := inferInstanceAs (Decidable (Nesting.Fits _ _))

/-- The offsets of the characters of the line: one at the start of every run, and none behind the last run. -/
structure Offsets (offsets : List Nat) : Prop where
  increasing : offsets.Pairwise (· < ·)
  starts : ∀ r ∈ t.runs, r.pos ∈ offsets
  bounded : ∀ o ∈ offsets, o < t.stop.pos

/-- No compaction after the first joins runs of different levels. -/
def LevelsAgree : Prop :=
  SameLevels (t.afterWeak dir) ∧ SameLevels (t.afterCollapse dir) ∧ SameLevels (t.afterNeutral dir)

/-- Every character that is not a formatting one is displayed at its explicit level, or at most two above. -/
def KeepsLevels : Prop :=
  ∀ before r after, t.runs = before ++ r :: after → r.type.isFormat = false →
    ∀ offsets, t.Offsets offsets →
      ∀ p level, (p, level) ∈ offsets.zip (embeddingLevels (t.bidirAnalyzeString dir).1.tail offsets) →
        r.pos ≤ p → (∀ q ∈ (after ++ [t.stop]).head?, p < q.pos) →
          (t.nestingAfter dir before).level ≤ level ∧ level ≤ (t.nestingAfter dir before).level + 2

end BidirTypeList

end Qemacs
