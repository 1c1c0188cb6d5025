import Qemacs.Lib.Walk
import Qemacs.Lib.Words
import Qemacs.Util.Ctype

/-!
# `canonicalize_path`

The parts of a path are put one behind the other in the buffer, and a `..` cuts the last one off again. The test for
what may be cut looks for a slash, which the first part of a relative path does not have before it: so that part is
kept, with the `..` behind it.

A string is the list of its bytes before the NUL.
-/

namespace Qemacs

open Lib

/-- `pstrcat`: what the array of `size` bytes then holds. -/
def pstrcat (size : Nat) (buf s : List UInt8) : List UInt8 :=
  if buf.length < size then buf ++ s.take (size - buf.length - 1) else buf

/-- `strrchr`: what is before the last `c`, and what is behind it. -/
def strrchr (c : UInt8) : List UInt8 → Option (List UInt8 × List UInt8)
  | [] => none
  | b :: s =>
    match strrchr c s with
    | some (u, v) => some (b :: u, v)
    | none => if b = c then some ([], s) else none

/-- `.`, and the parent directory. -/
def dot : List UInt8 := asciiString "."
def dotDot : List UInt8 := asciiString ".."

/-- `sizeof(file) - 1`. -/
def fileMax : Nat := 1023

/-- From `copy` on. -/
def copyFile (size : Nat) (absPath : Bool) (buf file : List UInt8) : List UInt8 :=
  pstrcat size (if buf ≠ [] ∨ absPath = true then pstrcat size buf [ascii '/'] else buf) file

/-- What is done with a part of the path. -/
def addFile (size : Nat) (absPath : Bool) (buf file : List UInt8) : List UInt8 :=
  if file = [] then buf
  else if file = dot then buf
  else if file = dotDot then
    if buf = [] then if absPath then buf else copyFile size absPath buf file
    else
      match strrchr (ascii '/') buf with
      | none => copyFile size absPath buf file
      | some (q1, name) => if name = dotDot then copyFile size absPath buf file else q1
  else copyFile size absPath buf file

/-- The loop, with the part that is being extracted. -/
def canonFrom (size : Nat) (absPath : Bool) (file buf : List UInt8) : List UInt8 → List UInt8
  | [] => addFile size absPath buf file
  | c :: p =>
    if c = ascii '/' then canonFrom size absPath [] (addFile size absPath buf file) p
    else canonFrom size absPath (if file.length < fileMax then file ++ [c] else file) buf p

/-- `abs_path`. -/
def isAbsPath (path : List UInt8) : Bool := path.head? == some (ascii '/')

def canonicalizePath1 (size : Nat) (path : List UInt8) : List UInt8 :=
  let buf := canonFrom size (isAbsPath path) [] [] path
  if buf = [] then pstrcat size [] (if isAbsPath path then [ascii '/'] else dot) else buf

/-- `canonicalize_path`. A path with a `:` behind its first byte is taken for one on a drive, any other one with a
`:` for an URL. `p` is the place of the colon: what is stored in front are the colon and the byte behind it, which may
be the NUL. -/
def canonicalizePath (size : Nat) (path : List UInt8) : List UInt8 :=
  if ascii ':' ∈ path then
    if path.idxOf (ascii ':') = 1 then
      match path.drop 1 with
      | p0 :: p1 :: p => p0 :: p1 :: canonicalizePath1 (size - 2) (p0 :: p1 :: p)
      | p => p
    else path.take (size - 1)
  else canonicalizePath1 size path

/-! ## What a path means -/

def isStep (seg : List UInt8) : Bool := decide (seg ≠ []) && decide (seg ≠ dot)

def pathSteps (path : List UInt8) : List (List UInt8) := (path.splitOn (ascii '/')).filter isStep

structure Resolution where
  absPath : Bool
  place : Place (List UInt8)
  deriving DecidableEq

def resolve (path : List UInt8) : Resolution := ⟨isAbsPath path, walk dotDot (isAbsPath path) (pathSteps path)⟩

/-- The segments that are written in a path, behind the slash of an absolute one. -/
def pathSegments (path : List UInt8) : List (List UInt8) :=
  let rest := if isAbsPath path then path.tail else path
  if rest = [] then [] else rest.splitOn (ascii '/')

structure PathFits (size : Nat) (path : List UInt8) : Prop where
  room : path.length < size
  two : 1 < size
  short : ∀ seg ∈ path.splitOn (ascii '/'), seg.length ≤ fileMax

/-! ## The parts in the buffer -/

/-- What the loop does to the parts it has kept. -/
def keepStep (absPath : Bool) (kept : List (List UInt8)) (seg : List UInt8) : List (List UInt8) :=
  if seg = dotDot then
    if kept = [] then if absPath then [] else [dotDot]
    else if (absPath = true ∨ 2 ≤ kept.length) ∧ kept.getLast? ≠ some dotDot then kept.dropLast
    else kept ++ [dotDot]
  else kept ++ [seg]

/-- The parts that are kept of a path. -/
def keptOf (absPath : Bool) (steps : List (List UInt8)) : List (List UInt8) := steps.foldl (keepStep absPath) []

/-- The buffer that holds some parts. -/
def spellBuf (absPath : Bool) : List (List UInt8) → List UInt8
  | [] => []
  | seg :: kept => if absPath then trail (ascii '/') (seg :: kept) else seg ++ trail (ascii '/') kept

variable {s : List UInt8}

theorem strrchr_of_notMem {c : UInt8} (h : c ∉ s) : strrchr c s = none := by
  induction s with
  | nil => rfl
  | cons b s ih =>
    rw [List.mem_cons, not_or] at h
    rw [strrchr, ih h.2]
    exact if_neg (Ne.symm h.1)

theorem strrchr_last {c : UInt8} (u : List UInt8) (h : c ∉ s) : strrchr c (u ++ c :: s) = some (u, s) := by
  induction u with
  | nil =>
    rw [List.nil_append, strrchr, strrchr_of_notMem h]
    exact if_pos rfl
  | cons b u ih => rw [List.cons_append, strrchr, ih]

variable {buf : List UInt8} {size : Nat}

theorem pstrcat_of_fits (h : buf.length + s.length < size) : pstrcat size buf s = buf ++ s := by
  rw [pstrcat, if_pos (by omega), List.take_of_length_le (by omega)]

/-- Parts that can be kept: not empty, and without a slash. -/
def KeptOk (kept : List (List UInt8)) : Prop := ∀ seg ∈ kept, seg ≠ [] ∧ ascii '/' ∉ seg

theorem spellBuf_concat (absPath : Bool) (kept : List (List UInt8)) (seg : List UInt8) :
    spellBuf absPath (kept ++ [seg]) =
      (if kept ≠ [] ∨ absPath = true then spellBuf absPath kept ++ [ascii '/'] else []) ++ seg := by
  cases kept with
  | nil => cases absPath <;> simp [spellBuf]
  | cons first kept => cases absPath <;> simp [spellBuf, trail_concat]

variable {kept : List (List UInt8)}

theorem KeptOk.spellBuf_eq_nil (h : KeptOk kept) (absPath : Bool) : spellBuf absPath kept = [] ↔ kept = [] := by
  cases kept with
  | nil => exact iff_of_true rfl rfl
  | cons seg kept =>
    have hseg := (h seg List.mem_cons_self).1
    cases absPath <;> simp [spellBuf, hseg]

variable {absPath : Bool} {file : List UInt8}

theorem copyFile_spell (hk : KeptOk kept) (hroom : (spellBuf absPath (kept ++ [file])).length < size) :
    copyFile size absPath (spellBuf absPath kept) file = spellBuf absPath (kept ++ [file]) := by
  rw [spellBuf_concat] at hroom ⊢
  have hiff := hk.spellBuf_eq_nil absPath
  unfold copyFile
  by_cases h : kept ≠ [] ∨ absPath = true
  · rw [if_pos h] at hroom ⊢
    rw [if_pos (h.imp_left (mt hiff.mp))]
    rw [List.length_append, List.length_append, List.length_singleton] at hroom
    have h1 : (spellBuf absPath kept).length + [ascii '/'].length < size := by
      rw [List.length_singleton]
      omega
    rw [pstrcat_of_fits h1, pstrcat_of_fits (by simpa using hroom)]
  · rw [if_neg h] at hroom ⊢
    rw [if_neg (mt (Or.imp_left (mt hiff.mpr)) h)]
    have hnil : kept = [] := by simpa using (not_or.mp h).1
    subst hnil
    exact pstrcat_of_fits (by simpa [spellBuf] using hroom)

/-- The last part of several, and of an absolute path, is found and what is before it. -/
theorem strrchr_spell {seg : List UInt8} (hseg : ascii '/' ∉ seg) (h : kept ≠ [] ∨ absPath = true) :
    strrchr (ascii '/') (spellBuf absPath (kept ++ [seg])) = some (spellBuf absPath kept, seg) := by
  rw [spellBuf_concat, if_pos h, List.append_assoc]
  exact strrchr_last _ hseg

/-- What the loop has in the buffer after a part. -/
def addKept (absPath : Bool) (kept : List (List UInt8)) (file : List UInt8) : List (List UInt8) :=
  if isStep file then keepStep absPath kept file else kept

theorem addFile_spell (hk : KeptOk kept) (hroom : (spellBuf absPath (kept ++ [file])).length < size) :
    addFile size absPath (spellBuf absPath kept) file = spellBuf absPath (addKept absPath kept file) := by
  have hiff := hk.spellBuf_eq_nil absPath
  unfold addFile addKept
  by_cases hstep : isStep file = true
  · have hne : file ≠ [] ∧ file ≠ dot := by simpa [isStep] using hstep
    rw [if_neg hne.1, if_neg hne.2, if_pos hstep, copyFile_spell hk hroom]
    unfold keepStep
    by_cases hup : file = dotDot
    · rw [if_pos hup, if_pos hup]
      rcases List.eq_nil_or_concat' kept with rfl | ⟨kept, seg, rfl⟩
      · cases absPath <;> simp [spellBuf, hup]
      · have hnil : kept ++ [seg] ≠ [] := List.append_ne_nil_of_right_ne_nil kept (List.cons_ne_nil seg [])
        obtain ⟨-, hslash⟩ := hk seg (List.mem_append_right kept (List.mem_singleton_self seg))
        rw [if_neg (mt hiff.mp hnil), if_neg hnil, List.getLast?_concat, List.dropLast_concat, hup]
        by_cases h : kept ≠ [] ∨ absPath = true
        · have h2 : absPath = true ∨ 2 ≤ (kept ++ [seg]).length := by
            rcases h with h | h
            · have hpos := List.length_pos_iff.mpr h
              rw [List.length_append, List.length_singleton]
              exact .inr (by omega)
            · exact .inl h
          rw [strrchr_spell hslash h]
          by_cases hseg : seg = dotDot
          · simp [hseg]
          · rw [if_pos ⟨h2, by simpa using hseg⟩]
            exact if_neg hseg
        · -- the only part of a relative path has no slash
          obtain ⟨hk', habs⟩ := not_or.mp h
          obtain rfl : kept = [] := by simpa using hk'
          obtain rfl : absPath = false := by simpa using habs
          have hspell : spellBuf false ([] ++ [seg]) = seg := List.append_nil seg
          rw [hspell, strrchr_of_notMem hslash]
          simp
    · rw [if_neg hup, if_neg hup]
  · rw [if_neg hstep]
    by_cases hnil : file = []
    · rw [if_pos hnil]
    · rw [if_neg hnil, if_pos (by simpa [isStep, hnil] using hstep)]

theorem keepStep_subset (absPath : Bool) (kept : List (List UInt8)) (seg : List UInt8) :
    keepStep absPath kept seg ⊆ kept ++ [seg] := by
  unfold keepStep
  split_ifs with h1 h2 h3 h4
  · exact List.nil_subset _
  · exact h1 ▸ List.subset_append_right kept [seg]
  · exact List.subset_append_of_subset_left _ (List.dropLast_subset kept)
  · exact h1 ▸ List.Subset.refl _
  · exact List.Subset.refl _

theorem KeptOk.addKept (hk : KeptOk kept) (hf : ascii '/' ∉ file) : KeptOk (addKept absPath kept file) := by
  unfold Qemacs.addKept
  split_ifs with hstep
  · intro seg hseg
    rcases List.mem_append.mp (keepStep_subset absPath kept file hseg) with h | h
    · exact hk seg h
    · rw [List.mem_singleton] at h
      have hne : file ≠ [] ∧ file ≠ dot := by simpa [isStep] using hstep
      exact h ▸ ⟨hne.1, hf⟩
  · exact hk

/-- The slash that comes before the next part. -/
def slashBefore (absPath : Bool) (kept : List (List UInt8)) : Nat := if kept ≠ [] ∨ absPath = true then 1 else 0

theorem length_spellBuf_concat (absPath : Bool) (kept : List (List UInt8)) (seg : List UInt8) :
    (spellBuf absPath (kept ++ [seg])).length ≤
      (spellBuf absPath kept).length + slashBefore absPath kept + seg.length := by
  rw [spellBuf_concat, slashBefore, List.length_append]
  split_ifs <;> simp

theorem length_spellBuf_dropLast (absPath : Bool) (kept : List (List UInt8)) :
    (spellBuf absPath kept.dropLast).length ≤ (spellBuf absPath kept).length := by
  rcases List.eq_nil_or_concat' kept with rfl | ⟨kept, seg, rfl⟩
  · exact Nat.le_refl _
  · rw [List.dropLast_concat, spellBuf_concat]
    cases kept with
    | nil => exact Nat.zero_le _
    | cons first kept =>
      rw [if_pos (.inl (List.cons_ne_nil first kept)), List.length_append, List.length_append]
      omega

theorem length_spellBuf_addKept (absPath : Bool) (kept : List (List UInt8)) (file : List UInt8) :
    (spellBuf absPath (addKept absPath kept file)).length ≤
      (spellBuf absPath kept).length + slashBefore absPath kept + file.length := by
  have hconcat := length_spellBuf_concat absPath kept file
  have hdrop := length_spellBuf_dropLast absPath kept
  unfold addKept keepStep
  split_ifs with hstep hup hnil habs hpop
  · exact Nat.zero_le _
  · subst hup
    subst hnil
    exact hconcat
  · omega
  · exact hup ▸ hconcat
  · exact hconcat
  · omega

theorem slashBefore_le (absPath : Bool) (kept : List (List UInt8)) : slashBefore absPath kept ≤ 1 := by
  unfold slashBefore
  split_ifs <;> decide

/-- The loop keeps the parts that say something, if all of them fit. -/
theorem canonFrom_spell {p w : List UInt8} {ws : List (List UInt8)} (hw : WordsFrom (ascii '/') p w ws)
    (hk : KeptOk kept) (hf : ascii '/' ∉ file)
    (hroom : (spellBuf absPath kept).length + slashBefore absPath kept + file.length + p.length < size)
    (hfile : file.length + w.length ≤ fileMax) (hshort : ∀ seg ∈ ws, seg.length ≤ fileMax) :
    canonFrom size absPath file (spellBuf absPath kept) p =
      spellBuf absPath (((file ++ w) :: ws).foldl (addKept absPath) kept) := by
  induction p generalizing w ws file kept with
  | nil =>
    obtain ⟨rfl, rfl⟩ := wordsFrom_nil hw
    have hlen := length_spellBuf_concat absPath kept file
    rw [canonFrom, addFile_spell hk (by omega), List.append_nil]
    rfl
  | cons c p ih =>
    rw [List.length_cons] at hroom
    by_cases hc : c = ascii '/'
    · subst hc
      obtain ⟨rfl, hws⟩ := wordsFrom_sep hw
      obtain ⟨w', ws', hw'⟩ := exists_wordsFrom (ascii '/') p
      obtain rfl : ws = w' :: ws' := hws.symm.trans hw'
      obtain ⟨hshort', hshort⟩ := List.forall_mem_cons.mp hshort
      have hconcat := length_spellBuf_concat absPath kept file
      have hadd := length_spellBuf_addKept absPath kept file
      have hslash := slashBefore_le absPath (addKept absPath kept file)
      rw [canonFrom, if_pos rfl, addFile_spell hk (by omega),
        ih hw' (hk.addKept hf) List.not_mem_nil (by simp only [List.length_nil]; omega) (by simpa using hshort') hshort,
        List.append_nil, List.nil_append]
      rfl
    · obtain ⟨w', rfl, hw'⟩ := wordsFrom_cons hc hw
      rw [List.length_cons] at hfile
      have hlt : file.length < fileMax := by omega
      have hf' : ascii '/' ∉ file ++ [c] := by simp [hf, Ne.symm hc]
      have hlen : (file ++ [c]).length = file.length + 1 := List.length_append
      rw [canonFrom, if_neg hc, if_pos hlt, ih hw' hk hf' (by omega) (by omega) hshort, List.append_assoc]
      rfl

theorem pathSteps_slash (p : List UInt8) : pathSteps (ascii '/' :: p) = pathSteps p := by
  rw [pathSteps, List.splitOn_cons_eq_if_modifyHead, if_pos (beq_self_eq_true _)]
  rfl

theorem foldl_addKept (absPath : Bool) (segs kept : List (List UInt8)) :
    segs.foldl (addKept absPath) kept = (segs.filter isStep).foldl (keepStep absPath) kept := by
  rw [List.foldl_filter]
  rfl

/-- The path of some parts: at least `.` or `/`. -/
def spellPath (absPath : Bool) (kept : List (List UInt8)) : List UInt8 :=
  if kept = [] then if absPath then [ascii '/'] else dot else spellBuf absPath kept

theorem keptOk_foldl {steps : List (List UInt8)} (hk : KeptOk kept)
    (hs : ∀ seg ∈ steps, isStep seg = true ∧ ascii '/' ∉ seg) : KeptOk (steps.foldl (keepStep absPath) kept) := by
  induction steps generalizing kept with
  | nil => exact hk
  | cons seg steps ih =>
    obtain ⟨⟨hstep, hslash⟩, hs⟩ := List.forall_mem_cons.mp hs
    have hadd : KeptOk (addKept absPath kept seg) := hk.addKept hslash
    rw [addKept, if_pos hstep] at hadd
    exact ih hadd hs

variable {path : List UInt8}

theorem of_mem_pathSteps {seg : List UInt8} (h : seg ∈ pathSteps path) : isStep seg = true ∧ ascii '/' ∉ seg :=
  ⟨List.of_mem_filter h, (of_mem_splitOn (List.mem_of_mem_filter h)).2⟩

theorem keptOk_keptOf (absPath : Bool) (path : List UInt8) : KeptOk (keptOf absPath (pathSteps path)) :=
  keptOk_foldl (List.forall_mem_nil _) fun _ => of_mem_pathSteps

theorem isAbsPath_iff : isAbsPath path = true ↔ ∃ rest, path = ascii '/' :: rest := by
  cases path with
  | nil => simp [isAbsPath]
  | cons c rest => simp [isAbsPath]

/-- **What the function writes**: the parts that are kept. -/
theorem canonicalizePath1_eq (h : PathFits size path) :
    canonicalizePath1 size path = spellPath (isAbsPath path) (keptOf (isAbsPath path) (pathSteps path)) := by
  have hok := keptOk_keptOf (isAbsPath path) path
  have hbuf : canonFrom size (isAbsPath path) [] [] path =
      spellBuf (isAbsPath path) (keptOf (isAbsPath path) (pathSteps path)) := by
    have hroom := h.room
    have hshort := h.short
    cases habs : isAbsPath path with
    | true =>
      obtain ⟨rest, rfl⟩ := isAbsPath_iff.mp habs
      obtain ⟨w, ws, hw⟩ := exists_wordsFrom (ascii '/') rest
      rw [List.splitOn_cons_eq_if_modifyHead, if_pos (beq_self_eq_true _), hw] at hshort
      obtain ⟨-, hshort⟩ := List.forall_mem_cons.mp hshort
      obtain ⟨hw1, hws⟩ := List.forall_mem_cons.mp hshort
      rw [List.length_cons] at hroom
      have hstart : canonFrom size true [] (spellBuf true []) rest =
          spellBuf true ((([] ++ w) :: ws).foldl (addKept true) []) :=
        canonFrom_spell hw (List.forall_mem_nil _) List.not_mem_nil (by simp [spellBuf, slashBefore]; omega)
          (by simpa using hw1) hws
      rw [pathSteps_slash, canonFrom, if_pos rfl]
      rw [List.nil_append, foldl_addKept, ← hw] at hstart
      exact hstart
    | false =>
      obtain ⟨w, ws, hw⟩ := exists_wordsFrom (ascii '/') path
      rw [hw] at hshort
      obtain ⟨hw1, hws⟩ := List.forall_mem_cons.mp hshort
      have hstart : canonFrom size false [] (spellBuf false []) path =
          spellBuf false ((([] ++ w) :: ws).foldl (addKept false) []) :=
        canonFrom_spell hw (List.forall_mem_nil _) List.not_mem_nil (by simpa [spellBuf, slashBefore] using hroom)
          (by simpa using hw1) hws
      rw [List.nil_append, foldl_addKept, ← hw] at hstart
      exact hstart
  have htwo := h.two
  rw [canonicalizePath1, hbuf, spellPath]
  simp only [hok.spellBuf_eq_nil]
  split_ifs
  · exact pstrcat_of_fits htwo
  · exact pstrcat_of_fits htwo
  · rfl

/-! ## The meaning is kept -/

theorem walk_keepStep (absPath : Bool) (kept : List (List UInt8)) (seg : List UInt8) :
    walk dotDot absPath (keepStep absPath kept seg) = (walk dotDot absPath kept).step dotDot absPath seg := by
  unfold keepStep
  split_ifs with hup hnil habs hpop
  · simp [hup, hnil, habs, Place.step]
  · simp [hup, hnil, habs, Place.step, walk]
  · -- the name that is cut off and the `..`
    rcases List.eq_nil_or_concat' kept with rfl | ⟨kept, name, rfl⟩
    · exact absurd rfl hnil
    · rw [List.getLast?_concat] at hpop
      have hname : name ≠ dotDot := fun h => hpop.2 (congrArg some h)
      rw [List.dropLast_concat, hup, ← walk_concat, walk_name_up hname]
  · rw [hup, walk_concat]
  · rw [walk_concat]

theorem walk_keptOf (absPath : Bool) (steps : List (List UInt8)) :
    walk dotDot absPath (keptOf absPath steps) = walk dotDot absPath steps := by
  induction steps using List.reverseRecOn with
  | nil => rfl
  | append_singleton steps seg ih =>
    rw [keptOf, List.foldl_append, ← keptOf, walk_concat, ← ih]
    exact walk_keepStep absPath _ seg

theorem keepStep_cases (absPath : Bool) (kept : List (List UInt8)) (seg : List UInt8) :
    keepStep absPath kept seg <+: kept ∨ keepStep absPath kept seg = kept ++ [seg] := by
  unfold keepStep
  split_ifs with hup hnil
  · exact .inl List.nil_prefix
  · exact .inr (by rw [hnil, hup, List.nil_append])
  · exact .inl (List.dropLast_prefix kept)
  · exact .inr (by rw [hup])
  · exact .inr rfl

theorem keptOf_prefix (absPath : Bool) (steps : List (List UInt8)) (h : kept <+: keptOf absPath steps)
    : keptOf absPath kept = kept := by
  induction steps using List.reverseRecOn generalizing kept with
  | nil =>
    obtain rfl := List.prefix_nil.mp h
    rfl
  | append_singleton steps seg ih =>
    have hfold : keptOf absPath (steps ++ [seg]) = keepStep absPath (keptOf absPath steps) seg := List.foldl_concat ..
    rw [hfold] at h
    rcases keepStep_cases absPath (keptOf absPath steps) seg with hp | heq
    · exact ih (h.trans hp)
    · rw [heq] at h
      rcases List.prefix_concat_iff.mp h with rfl | h
      · have hself : keptOf absPath (keptOf absPath steps) = keptOf absPath steps := ih List.prefix_rfl
        rw [keptOf, List.foldl_concat, ← keptOf, hself, heq]
      · exact ih h

theorem keptOf_subset (absPath : Bool) (steps : List (List UInt8)) : keptOf absPath steps ⊆ steps := by
  induction steps using List.reverseRecOn with
  | nil => exact List.Subset.refl _
  | append_singleton steps seg ih =>
    rw [keptOf, List.foldl_concat, ← keptOf]
    refine List.Subset.trans (keepStep_subset absPath _ seg) (List.append_subset.mpr ⟨?_, List.subset_append_right ..⟩)
    exact List.subset_append_of_subset_left _ ih

theorem length_pstrcat_lt (h : buf.length < size) (s : List UInt8) : (pstrcat size buf s).length < size := by
  rw [pstrcat, if_pos h, List.length_append, List.length_take]
  omega

theorem length_strrchr {c : UInt8} {u : List UInt8} (h : strrchr c buf = some (u, s)) : u.length < buf.length := by
  induction buf generalizing u with
  | nil => exact absurd h (Option.some_ne_none _).symm
  | cons b buf ih =>
    rw [strrchr] at h
    cases hr : strrchr c buf with
    | some r =>
      obtain ⟨u', v⟩ := r
      rw [hr] at h
      obtain ⟨rfl, rfl⟩ := Prod.mk.inj (Option.some.inj h)
      exact Nat.succ_lt_succ (ih hr)
    | none =>
      rw [hr] at h
      simp only at h
      split_ifs at h
      obtain ⟨rfl, -⟩ := Prod.mk.inj (Option.some.inj h)
      exact Nat.succ_pos _

theorem length_copyFile_lt (h : buf.length < size) (absPath : Bool) (file : List UInt8) :
    (copyFile size absPath buf file).length < size := by
  unfold copyFile
  split_ifs
  · exact length_pstrcat_lt (length_pstrcat_lt h _) _
  · exact length_pstrcat_lt h _

theorem length_addFile_lt (h : buf.length < size) (absPath : Bool) (file : List UInt8) :
    (addFile size absPath buf file).length < size := by
  have hcopy := length_copyFile_lt h absPath file
  unfold addFile
  cases hr : strrchr (ascii '/') buf with
  | none => split_ifs <;> assumption
  | some r =>
    have hlt := length_strrchr hr
    simp only
    split_ifs <;> first | assumption | omega

theorem length_canonFrom_lt (p : List UInt8) (h : buf.length < size)
    : (canonFrom size absPath file buf p).length < size := by
  induction p generalizing file buf with
  | nil => exact length_addFile_lt h absPath file
  | cons c p ih =>
    rw [canonFrom]
    split_ifs
    · exact ih (length_addFile_lt h absPath file)
    · exact ih h
    · exact ih h

theorem length_canonicalizePath1_lt (h : 0 < size) (path : List UInt8) :
    (canonicalizePath1 size path).length < size := by
  unfold canonicalizePath1
  simp only
  split_ifs
  · exact length_pstrcat_lt h _
  · exact length_pstrcat_lt h _
  · exact length_canonFrom_lt path h

theorem ne_of_isStep {seg : List UInt8} (h : isStep seg = true) : seg ≠ [] ∧ seg ≠ dot := by
  simpa [isStep] using h

theorem isAbsPath_spellPath (hk : KeptOk kept) : isAbsPath (spellPath absPath kept) = absPath := by
  cases kept with
  | nil => cases absPath <;> decide
  | cons seg kept =>
    obtain ⟨hne, hslash⟩ := hk seg List.mem_cons_self
    cases absPath with
    | true => simp [spellPath, spellBuf, isAbsPath]
    | false =>
      obtain ⟨c, seg, rfl⟩ := List.exists_cons_of_ne_nil hne
      have hc : c ≠ ascii '/' := fun h => hslash (List.mem_cons.mpr (.inl h.symm))
      simp [spellPath, spellBuf, isAbsPath, hc]

/-- The segments of the path that is written are the parts that are kept, but for the path `.`. -/
theorem pathSegments_spellPath (absPath : Bool) (hk : KeptOk kept) :
    (absPath = false ∧ kept = []) ∨ pathSegments (spellPath absPath kept) = kept := by
  cases kept with
  | nil =>
    cases absPath with
    | true => exact .inr (by decide)
    | false => exact .inl ⟨rfl, rfl⟩
  | cons seg kept =>
    refine .inr ?_
    obtain ⟨⟨hne, hslash⟩, hk'⟩ := List.forall_mem_cons.mp hk
    have hsplit : (seg ++ trail (ascii '/') kept).splitOn (ascii '/') = seg :: kept :=
      splitOn_trail hslash fun v hv => (hk' v hv).2
    rw [pathSegments, isAbsPath_spellPath hk]
    cases absPath with
    | true => simp [spellPath, spellBuf, hne, hsplit]
    | false => simp [spellPath, spellBuf, hne, hsplit]

theorem splitOn_spellPath (hk : KeptOk kept) :
    ∀ seg ∈ (spellPath absPath kept).splitOn (ascii '/'), seg ∈ kept ∨ seg = [] ∨ seg = dot := by
  cases kept with
  | nil => cases absPath <;> decide
  | cons first kept =>
    obtain ⟨⟨-, hslash⟩, hk'⟩ := List.forall_mem_cons.mp hk
    have hsplit : (first ++ trail (ascii '/') kept).splitOn (ascii '/') = first :: kept :=
      splitOn_trail hslash fun v hv => (hk' v hv).2
    intro seg hseg
    cases absPath with
    | true =>
      have hpath : spellPath true (first :: kept) = ascii '/' :: (first ++ trail (ascii '/') kept) := rfl
      rw [hpath, List.splitOn_cons_eq_if_modifyHead, if_pos (beq_self_eq_true _), hsplit] at hseg
      rcases List.mem_cons.mp hseg with h | h
      · exact .inr (.inl h)
      · exact .inl h
    | false => exact .inl (hsplit ▸ hseg)

theorem pathSteps_spellPath (hk : KeptOk kept) (hstep : ∀ seg ∈ kept, isStep seg = true)
    : pathSteps (spellPath absPath kept) = kept := by
  cases kept with
  | nil => cases absPath <;> decide
  | cons first kept =>
    obtain ⟨⟨-, hslash⟩, hk'⟩ := List.forall_mem_cons.mp hk
    have hsplit : pathSteps (first ++ trail (ascii '/') kept) = first :: kept := by
      rw [pathSteps, splitOn_trail hslash fun v hv => (hk' v hv).2]
      exact List.filter_eq_self.mpr hstep
    cases absPath with
    | true => exact (pathSteps_slash _).trans hsplit
    | false => exact hsplit

theorem PathFits.canonical (h : PathFits size path) :
    PathFits size (canonicalizePath1 size path) where
  room := length_canonicalizePath1_lt (Nat.zero_lt_of_lt h.two) path
  two := h.two
  short seg hseg := by
    rw [canonicalizePath1_eq h] at hseg
    rcases splitOn_spellPath (keptOk_keptOf _ path) seg hseg with hmem | rfl | rfl
    · exact h.short seg (List.mem_of_mem_filter (keptOf_subset _ _ hmem))
    · exact Nat.zero_le _
    · decide

/-- **The meaning is kept**, and what is written is written again. -/
theorem canonicalizePath1_keeps {size : Nat} {path : List UInt8} (h : PathFits size path) :
    resolve (canonicalizePath1 size path) = resolve path ∧
      (canonicalizePath1 size path = dot ∨
        ∀ seg ∈ pathSegments (canonicalizePath1 size path), seg ≠ [] ∧ seg ≠ dot) ∧
      isAbsPath (canonicalizePath1 size path) = isAbsPath path ∧
      canonicalizePath1 size (canonicalizePath1 size path) = canonicalizePath1 size path := by
  have hok := keptOk_keptOf (isAbsPath path) path
  have hstep : ∀ seg ∈ keptOf (isAbsPath path) (pathSteps path), isStep seg = true :=
    fun seg hseg => (of_mem_pathSteps (keptOf_subset _ _ hseg)).1
  have habs : isAbsPath (canonicalizePath1 size path) = isAbsPath path := by
    rw [canonicalizePath1_eq h, isAbsPath_spellPath hok]
  have hsteps : pathSteps (canonicalizePath1 size path) = keptOf (isAbsPath path) (pathSteps path) := by
    rw [canonicalizePath1_eq h, pathSteps_spellPath hok hstep]
  refine ⟨?_, ?_, habs, ?_⟩
  · rw [resolve, habs, hsteps, walk_keptOf, resolve]
  · rw [canonicalizePath1_eq h]
    rcases pathSegments_spellPath (isAbsPath path) hok with ⟨hrel, hnil⟩ | hsegs
    · rw [hnil, hrel]
      exact .inl rfl
    · exact .inr fun seg hseg => ne_of_isStep (hstep seg (hsegs ▸ hseg))
  · rw [canonicalizePath1_eq h.canonical, habs, hsteps, keptOf_prefix _ _ List.prefix_rfl, canonicalizePath1_eq h]

theorem canonicalizePath1_keeps_sample :
    resolve (canonicalizePath1 64 (asciiString "a//./b/../../c")) = resolve (asciiString "a//./b/../../c") ∧
      (canonicalizePath1 64 (asciiString "a//./b/../../c") = dot ∨
        ∀ seg ∈ pathSegments (canonicalizePath1 64 (asciiString "a//./b/../../c")), seg ≠ [] ∧ seg ≠ dot) ∧
      isAbsPath (canonicalizePath1 64 (asciiString "a//./b/../../c")) = isAbsPath (asciiString "a//./b/../../c") ∧
      canonicalizePath1 64 (canonicalizePath1 64 (asciiString "a//./b/../../c")) =
        canonicalizePath1 64 (asciiString "a//./b/../../c") :=
  canonicalizePath1_keeps ⟨by decide, by decide, by decide⟩

end Qemacs
