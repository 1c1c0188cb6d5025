import Qemacs.Text.Reader

/-!
# `eb_search`

The search engine: three loops over candidate offsets, for bytes, for regular expressions and for
characters. It only reads the buffer, so it is a function of a `CharReader`. The pattern is the memory
from a pointer on, of which `len` characters are the pattern; nothing in the model keeps the code from
reading on behind it, and the offsets in the pattern that a run gets to are part of its result.

The tables of `unicode_join.c`, which are read from a file, and `libregexp` are parameters.
-/

namespace Qemacs

open Lib

/-! ## Characters -/

/-- `qe_inrange`, of code points. -/
def inRange32 (c a b : Nat) : Bool := a ≤ c && c ≤ b

/-- `qe_isword`: everything from 128 on is. -/
def qeIsword (c : Nat) : Bool :=
  inRange32 c 48 57 || inRange32 c 65 90 || inRange32 c 97 122 || c == 95 || c ≥ 128

/-- `qe_unaccent` and `qe_wctoupper`. -/
structure CaseTables where
  qeUnaccent : Nat → Nat
  qeWctoupper : Nat → Nat

def CaseTables.qeIswlower (t : CaseTables) (c : Nat) : Bool := inRange32 (t.qeUnaccent c) 97 122

def CaseTables.qeIswupper (t : CaseTables) (c : Nat) : Bool := inRange32 (t.qeUnaccent c) 65 90

def CaseTables.qeWtoupper (t : CaseTables) (c : Nat) : Nat :=
  if inRange32 c 97 122 then c - 32 else if c ≥ 0x80 then t.qeWctoupper c else c

/-! ## Arguments and results -/

/-- The bits of `SEARCH_FLAG_xxx` that `eb_search` looks at. -/
structure SearchFlags where
  ignoreCase : Bool := false
  smartCase : Bool := false
  word : Bool := false
  regex : Bool := false
  hex : Bool := false

/-- What `eb_search` returns: 0, -1, or 1 with the offsets of a match. -/
inductive SearchResult
  | notFound
  | aborted
  | found (offset stop : Int)
  deriving DecidableEq, Repr

/-- What `lre_exec` returns. -/
inductive LreResult
  | error
  | noMatch
  | found (start stop : Int)

/-- `libregexp`: the source, whether case is ignored, whether the match has to begin at the offset. A
compiled program has a count of captures. `exec` is given the buffer, the offset, the end offset and the
characters at these two. -/
structure Lre where
  compile : List UInt8 → Bool → Bool → Option Nat
  exec : List UInt8 → Bool → Bool → CharReader → Int → Int → Nat → Nat → LreResult

/-- The arguments of `eb_search` that no loop changes. `abort` is what `abort_func` returns when the
search is at an offset. -/
structure SearchArgs where
  v : CharReader
  dir : Int
  flags : SearchFlags
  startOffset : Int
  endOffset : Int
  buf : Nat → Nat
  len : Nat
  abort : Int → Bool

namespace SearchArgs

/-- A run: how many characters of the pattern have been read at each candidate, and the result. -/
abbrev Run := List Nat × SearchResult

/-- The analysis of the pattern for smart case, and the flags after it. -/
def analyzeCase (t : CaseTables) (flags : SearchFlags) (buf : Nat → Nat) (len : Nat) : SearchFlags :=
  if flags.smartCase && !flags.ignoreCase then
    let lowerCount := (List.range len).countP fun pos => t.qeIswlower (buf pos)
    let upperCount := (List.range len).countP fun pos => t.qeIswupper (buf pos)
    if lowerCount > 0 ∧ upperCount = 0 then { flags with ignoreCase := true } else flags
  else flags

/-- Whether two characters are the same to the search. -/
def sameChar (a : SearchArgs) (t : CaseTables) (c c2 : Nat) : Bool :=
  c == c2 || a.flags.ignoreCase && t.qeWtoupper c == t.qeWtoupper c2

/-- A match is taken forwards, and backwards if it does not go beyond the start. -/
def accepts (a : SearchArgs) (stop : Int) : Bool := a.dir ≥ 0 || stop ≤ a.startOffset

/-! ## Bytes -/

/-- The comparison of the byte loop at a candidate. -/
def hexCompare (a : SearchArgs) : Nat → Nat → Int → Option (Nat × Option Int)
  | 0, _, _ => none
  | fuel + 1, pos, offset2 =>
      if offset2 < a.v.totalSize then
        let c := toChar32 (a.v.readOneByte offset2)
        let offset2 := offset2 + 1
        let c2 := a.buf pos
        let pos := pos + 1
        if c ≠ c2 then some (pos, none)
        else if pos ≥ a.len ∧ a.accepts offset2 then some (pos, some offset2)
        else hexCompare a fuel pos offset2
      else some (pos, none)

def hexLoop (a : SearchArgs) : Nat → Int → List Nat → Option Run
  | 0, _, _ => none
  | fuel + 1, offset, reads =>
      if a.dir < 0 ∧ offset = 0 then some (reads, .notFound)
      else
        let offset := if a.dir < 0 then offset - 1 else offset + 1
        if a.dir ≥ 0 ∧ offset ≥ a.endOffset then some (reads, .notFound)
        else if offset % 0x100000 = 0 ∧ a.abort offset then some (reads, .aborted)
        else
          match hexCompare a (a.v.totalSize + offset.natAbs + 1) 0 offset with
          | none => none
          | some (pos, some stop) => some (reads ++ [pos], .found offset stop)
          | some (pos, none) => hexLoop a fuel offset (reads ++ [pos])

/-! ## Characters -/

/-- The comparison of the character loop at a candidate: `c` ends at `offset2`. -/
def plainCompare (a : SearchArgs) (t : CaseTables) (offset : Int) :
    Nat → Nat → Nat → Int → Option (Nat × Option Int)
  | 0, _, _, _ => none
  | fuel + 1, pos, c, offset2 =>
      let c2 := a.buf pos
      let pos := pos + 1
      if ¬a.sameChar t c c2 then some (pos, none)
      else if pos ≥ a.len ∧ a.flags.word ∧
          (qeIsword (a.v.prevc offset).1 ∨ qeIsword (a.v.nextc offset2).1) then some (pos, none)
      else if pos ≥ a.len ∧ a.accepts offset2 then some (pos, some offset2)
      else if offset2 ≥ a.v.totalSize then some (pos, none)
      else
        let (c, offset2) := a.v.nextc offset2
        plainCompare a t offset fuel pos c offset2

def plainLoop (a : SearchArgs) (t : CaseTables) : Nat → Int → Int → List Nat → Option Run
  | 0, _, _, _ => none
  | fuel + 1, offset, offset1, reads =>
      if a.dir < 0 ∧ offset = 0 then some (reads, .notFound)
      else
        let offset := if a.dir < 0 then a.v.prev offset else offset1
        if a.dir ≥ 0 ∧ offset ≥ a.endOffset then some (reads, .notFound)
        else if offset % 0x100000 = 0 ∧ a.abort offset then some (reads, .aborted)
        else
          let (c, offset1) := a.v.nextc offset
          match plainCompare a t offset (a.v.totalSize + 2) 0 c offset1 with
          | none => none
          | some (pos, some stop) => some (reads ++ [pos], .found offset stop)
          | some (pos, none) => plainLoop a t fuel offset offset1 (reads ++ [pos])

/-! ## Regular expressions -/

/-- Whether the regex loop takes a match. -/
def regexAccepts (a : SearchArgs) (start stop : Int) : Bool :=
  (a.dir ≥ 0 || stop ≤ a.endOffset) &&
    (!a.flags.word || qeIsword (a.v.prevc start).1 && qeIsword (a.v.nextc stop).1)

/-- The regex loop. `lre_exec` looks for a match itself, so that forwards it is called once. -/
def regexLoop (a : SearchArgs) (lre : Lre) (source : List UInt8) : Nat → Int → Int → Option SearchResult
  | 0, _, _ => none
  | fuel + 1, offset, offset1 =>
      if a.dir < 0 ∧ offset = 0 then some .notFound
      else
        let offset := if a.dir < 0 then a.v.prev offset else offset1
        if a.dir ≥ 0 ∧ offset ≥ a.endOffset then some .notFound
        else
          let offset1 := if a.dir < 0 then offset1 else a.v.next offset
          if offset % 0x10000 = 0 ∧ a.abort offset then some .aborted
          else
            match lre.exec source a.flags.ignoreCase (a.dir < 0) a.v offset a.endOffset
                (a.v.prevc offset).1 (a.v.nextc a.endOffset).1 with
            | .error => some .aborted
            | .found start stop =>
                if a.regexAccepts start stop then some (.found start stop)
                else if a.dir ≥ 0 then some .notFound
                else regexLoop a lre source fuel offset offset1
            | .noMatch =>
                if a.dir ≥ 0 then some .notFound else regexLoop a lre source fuel offset offset1

def searchLength : Nat := 2048

/-- The branch for regular expressions: the source is the pattern in UTF-8, which has to fit. -/
def regexSearch (a : SearchArgs) (lre : Lre) (fuel : Nat) : Option SearchResult :=
  let source := (List.range a.len).flatMap fun pos => utf8Encode (a.buf pos)
  if source.length ≥ searchLength then some .aborted
  else
    match lre.compile source a.flags.ignoreCase (a.dir < 0) with
    | none => some .aborted
    | some captureNum =>
        if captureNum = 0 then some .aborted
        else a.regexLoop lre source fuel a.startOffset a.startOffset

end SearchArgs

/-! ## The function -/

/-- The arguments as the loops see them: with the end offset clipped, and the flags after the analysis. -/
def searchArgs (t : CaseTables) (v : CharReader) (dir : Int) (flags : SearchFlags)
    (startOffset endOffset : Int) (buf : Nat → Nat) (len : Nat) (abort : Int → Bool) : SearchArgs where
  v := v
  dir := dir
  flags := SearchArgs.analyzeCase t flags buf len
  startOffset := startOffset
  endOffset := min (if dir < 0 then startOffset else endOffset) v.totalSize
  buf := buf
  len := len
  abort := abort

/-- `eb_search`, with how many characters of `buf` it has read at each candidate. -/
def ebSearch (t : CaseTables) (lre : Lre) (v : CharReader) (dir : Int) (flags : SearchFlags)
    (startOffset endOffset : Int) (buf : Nat → Nat) (len : Nat) (abort : Int → Bool) :
    Option SearchArgs.Run :=
  if len = 0 then some ([], .notFound)
  else
    let a := searchArgs t v dir flags startOffset endOffset buf len abort
    let fuel := v.totalSize + startOffset.natAbs + 3
    if a.flags.hex then a.hexLoop fuel (if dir ≥ 0 then startOffset - 1 else startOffset) []
    else if a.flags.regex then (a.regexSearch lre fuel).map fun r => ([], r)
    else a.plainLoop t fuel startOffset startOffset []

end Qemacs
