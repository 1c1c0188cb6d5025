import Qemacs.Lib.Longest
import Qemacs.Util.Ctype

/-!
# Input methods

`kmaptoqe` packs a list of key sequences and what they stand for, and `kmap_input` looks up in the
packed bytes what has been typed. An entry is written as the bytes of its input, the last of them with
a flag if the output is one character and the next one after the output before it; otherwise the output
follows. With a start table, the entries with one first byte make up a section, and that byte is in the
table only. The keys that are typed are characters, and those of an entry are bytes.
-/

namespace Qemacs

/-! ## `kmaptoqe` -/

/-- `InputEntry`. `len` and `olen` are the lengths of the lists. -/
structure InputEntry where
  input : List UInt8
  output : List UInt16
  order : Nat
  deriving DecidableEq, Repr

/-- `ip->input[0]`. -/
def InputEntry.input0 (ip : InputEntry) : UInt8 := ip.input.headD 0

/-- `ip->output[0]`. -/
def InputEntry.output0 (ip : InputEntry) : Nat := (ip.output.headD 0).toNat

/-- `gen_table` and `is_chinese_cj`: which form a map is written in. -/
structure MapForm where
  genTable : Bool
  isChineseCj : Bool
  deriving DecidableEq, Repr

def sortFunc (genTable : Bool) (a b : InputEntry) : Int :=
  let val : Int := if genTable then (a.input0.toNat : Int) - b.input0.toNat else 0
  if val ≠ 0 then val
  else
    let val : Int := (a.output0 : Int) - b.output0
    if val ≠ 0 then val else (a.order : Int) - b.order

/-- `qsort(inputs, nb_inputs, sizeof(InputEntry), sort_func)`. -/
def sortInputs (genTable : Bool) (inputs : List InputEntry) : List InputEntry :=
  inputs.mergeSort fun a b => sortFunc genTable a b ≤ 0

/-- `put_byte((c >> 8) & 0xff)` and `put_byte(c & 0xff)`. -/
def putWord (c : Nat) : List UInt8 := [UInt8.ofNat (c >>> 8), UInt8.ofNat c]

/-- A byte of the input, with the flag `d`. -/
def putInput (c d : UInt8) : List UInt8 :=
  if 0x20 ≤ c ∧ c ≤ 0x7f then [c ||| d] else (d ||| 0x1f) :: putWord c.toNat

/-- The bytes of the input, the last of them with a flag if `unit` says so. -/
def putInputs (unit : Bool) : List UInt8 → List UInt8
  | [] => []
  | [c] => putInput c (if unit then 0x80 else 0)
  | c :: d :: input => putInput c 0 ++ putInputs unit (d :: input)

/-- The first byte of the input that is written: the one before it is in the start table. -/
def MapForm.first (form : MapForm) : Nat := if form.genTable then 1 else 0

/-- The length of the input that is written: a trailing space is left out. -/
def MapForm.len (form : MapForm) (ip : InputEntry) : Nat :=
  if form.isChineseCj then ip.input.length - 1 else ip.input.length

/-- The output of an entry, `delta` after the one before it. -/
def putOutput (form : MapForm) (delta : Int) (ip : InputEntry) : List UInt8 :=
  if 1 < ip.output.length then
    (if delta ≠ 0 then 0x9e :: putWord ip.output0 else []) ++
      (0x80 ||| UInt8.ofNat ip.output.length) :: (ip.output.drop 1).flatMap fun c => putWord c.toNat
  else
    -- where no byte of the input is written, there is none to be flagged
    let delta := if form.first = form.len ip then 0 else delta
    if delta ≠ 1 then
      if 1 ≤ delta ∧ delta ≤ 0x1d then [UInt8.ofNat delta.toNat] else 0x1e :: putWord ip.output0
    else []

/-- An entry, behind one whose first output is `last`. -/
def putEntry (form : MapForm) (last : Nat) (ip : InputEntry) : List UInt8 :=
  let delta : Int := (ip.output0 : Int) - last
  putInputs (delta = 1 ∧ ip.output.length = 1) ((ip.input.take (form.len ip)).drop form.first) ++
    putOutput form delta ip

/-- The loop of `gen_map`, `offset` bytes having been written: the bytes it writes, and `table_val` and
`table_start`. -/
def genLoop (form : MapForm) : List InputEntry → Nat → UInt8 → Nat → List UInt8 × List (UInt8 × Nat)
  | [], _, _, _ => ([0], [])
  | ip :: ips, last, lastInput0, offset =>
      if form.genTable ∧ lastInput0 ≠ ip.input0 then
        let close : List UInt8 := if lastInput0 ≠ 0 then [0] else []
        let start := offset + close.length
        let entry := putEntry form 0 ip
        let (bytes, starts) := genLoop form ips ip.output0 ip.input0 (start + entry.length)
        (close ++ entry ++ bytes, (ip.input0, start) :: starts)
      else
        let entry := putEntry form last ip
        let (bytes, starts) := genLoop form ips ip.output0 lastInput0 (offset + entry.length)
        (entry ++ bytes, starts)

def genMap (form : MapForm) (inputs : List InputEntry) : List UInt8 × List (UInt8 × Nat) :=
  genLoop form inputs 0 0 0

/-- An entry of the start table. -/
def putStart (start : UInt8 × Nat) : List UInt8 :=
  [start.1, UInt8.ofNat (start.2 >>> 16), UInt8.ofNat (start.2 >>> 8), UInt8.ofNat start.2]

/-- The bytes that `main` writes for a map, unless an assertion of `gen_map` fails. -/
def compileMap (form : MapForm) (inputs : List InputEntry) : Option (List UInt8) :=
  if form.isChineseCj ∧ ∃ ip ∈ inputs, ip.input.getLast? ≠ some 32 then none
  else
    let (bytes, starts) := genMap form (sortInputs form.genTable inputs)
    some (UInt8.ofNat (starts.length ||| (if form.isChineseCj then 0x80 else 0)) ::
      (if form.genTable then starts.flatMap putStart else []) ++ bytes)

/-! ## `kmap_input` -/

/-- `(p[0] << 8) | p[1]`, and the pointer behind them. -/
def readWord : List UInt8 → Option (Nat × List UInt8)
  | hi :: lo :: p => some (hi.toNat <<< 8 ||| lo.toNat, p)
  | _ => none

/-- Whether `c` is what has been typed at `l1`, if anything has. -/
def agreesAt (buf : List Nat) (l1 c : Nat) : Bool := buf[l1]?.all (· == c)

/-- Where the inner loop ends: at the end of the table, or behind an entry, with `p`, `olen`, `match`,
`l1` and `last_outputc`. -/
inductive Scanned
  | theEnd
  | entry (p : List UInt8) (olen : Nat) (isMatch : Bool) (l1 lastOutputc : Nat)
  deriving DecidableEq, Repr

/-- The inner loop of `kmap_input`. There is no result if it reads beyond the data. -/
def scanEntry (buf : List Nat) : Nat → List UInt8 → Bool → Nat → Nat → Option Scanned
  | 0, _, _, _, _ => none
  | _ + 1, [], _, _, _ => none
  | fuel + 1, c :: p, isMatch, l1, lastOutputc =>
      let flag := c &&& 0x80 ≠ 0
      let c := c &&& 0x7f
      if c = 0 then some .theEnd
      else if c < 0x1e then
        if flag then some (.entry p c.toNat isMatch l1 lastOutputc)
        else some (.entry p 1 isMatch l1 (lastOutputc + c.toNat))
      else if c = 0x1e then do
        let (lastOutputc, p) ← readWord p
        if flag then scanEntry buf fuel p isMatch l1 lastOutputc
        else return .entry p 1 isMatch l1 lastOutputc
      else do
        let (c, p) ← if c = 0x1f then readWord p else some (c.toNat, p)
        let isMatch := isMatch && agreesAt buf l1 c
        if flag then return .entry p 1 isMatch (l1 + 1) (lastOutputc + 1)
        else scanEntry buf fuel p isMatch (l1 + 1) lastOutputc

/-- The best match so far. -/
structure Match where
  matchLen : Nat := 0
  matchRealLen : Nat := 0
  matchChar : Nat := 0
  matchCount : Nat := 0
  matchOlen : Nat := 0
  matchExtra : List UInt8 := []
  deriving DecidableEq, Repr

/-- An entry that matches. -/
def Match.update (m : Match) (len l1 lastOutputc olen : Nat) (p : List UInt8) : Match :=
  let l := min l1 len
  if l = m.matchLen then { m with matchCount := m.matchCount + 1 }
  else if l > m.matchLen then ⟨l, l1, lastOutputc, 1, olen, p⟩
  else m

/-- The outer loop of `kmap_input`. -/
def kmapLoop (buf : List Nat) (trailingSpace : Bool) (prefixLen : Nat) :
    Nat → List UInt8 → Nat → Match → Option Match
  | 0, _, _, _ => none
  | fuel + 1, p, lastOutputc, m => do
      match ← scanEntry buf (p.length + 1) p true prefixLen lastOutputc with
      | .theEnd => return m
      | .entry p olen isMatch l1 lastOutputc =>
          let isMatch := isMatch && (!trailingSpace || agreesAt buf l1 32)
          let l1 := if trailingSpace then l1 + 1 else l1
          kmapLoop buf trailingSpace prefixLen fuel (p.drop ((olen - 1) <<< 1)) lastOutputc
            (if isMatch then m.update buf.length l1 lastOutputc olen p else m)

/-- What `kmap_input` returns: with an output, its length, the contents of `match_buf` and
`*match_len_ptr`. -/
inductive InputMethodResult
  | noMatch
  | moreChars
  | found (olen : Nat) (matchBuf : List Nat) (matchLen : Nat)
  deriving DecidableEq, Repr

/-- The loop that fills `match_buf` behind its first character, `n` words being read. -/
def readOutputs : Nat → List UInt8 → Option (List Nat)
  | 0, _ => some []
  | n + 1, p => do
      let (c, p) ← readWord p
      return c :: (← readOutputs n p)

/-- The end of `kmap_input`. -/
def Match.result (m : Match) (matchBufSize len : Nat) : Option InputMethodResult :=
  if m.matchLen = 0 then some .noMatch
  else if m.matchCount > 1 ∨ m.matchRealLen > len then some .moreChars
  else if matchBufSize > 0 then do
    let matchBuf ← readOutputs (min m.matchOlen matchBufSize - 1) m.matchExtra
    return .found m.matchOlen (m.matchChar :: matchBuf) m.matchLen
  else some (.found m.matchOlen [] m.matchLen)

/-- The search through the start table for `buf[0]`: the section's offset. -/
def findStart (c : Nat) : Nat → List UInt8 → Option (Option Nat)
  | 0, _ => some none
  | n + 1, b :: b₁ :: b₂ :: b₃ :: p =>
      if c = b.toNat then some (some ((b₁.toNat <<< 16) + (b₂.toNat <<< 8) + b₃.toNat)) else findStart c n p
  | _ + 1, _ => none

/-- `kmap_input`, for at least one key. -/
def kmapInput (matchBufSize : Nat) (data : List UInt8) (buf : List Nat) : Option InputMethodResult := do
  let head ← data.head?
  let p := data.drop 1
  let nbPrefixes := (head &&& 0x7f).toNat
  let trailingSpace : Bool := head &&& 0x80 ≠ 0
  if nbPrefixes > 0 then
    match ← findStart (buf.headD 0) nbPrefixes p with
    | none => return .noMatch
    | some start =>
        let p := p.drop (nbPrefixes * 4 + start)
        (← kmapLoop buf trailingSpace 1 (p.length + 1) p 0 {}).result matchBufSize buf.length
  else (← kmapLoop buf trailingSpace 0 (p.length + 1) p 0 {}).result matchBufSize buf.length

end Qemacs
